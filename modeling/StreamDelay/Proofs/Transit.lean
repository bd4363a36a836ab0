import Mathlib.Tactic.Common
import StreamDelay.Proofs.Encoder
import StreamDelay.Proofs.Feeding

/-! # Messages in transit

What one side has written and the other has not yet handled: the messages in order, with the chunk size
that each of them leaves. Some bytes of the first may have been taken by the decoder, some of the rest may
be in its buffer, and what is still to arrive comes behind them.
-/

namespace StreamDelay.Rtmp

open Foundations

/-- The encoder that a message leaves: a change of the chunk size holds from the next one on. -/
def ChunkEncoder.after (e : ChunkEncoder) (m : Message) : ChunkEncoder :=
  if m.typeId = SET_CHUNK_SIZE then .setChunkSize (be32 m.payload).toNat else e

/-- The bytes of messages written one after the other. -/
def wire : ChunkEncoder → List Message → Bytes
  | _, [] => []
  | e, m :: rest => e.write m ++ wire (e.after m) rest

theorem wire_append (e : ChunkEncoder) (first second : List Message) :
    wire e (first ++ second) = wire e first ++ wire (first.foldl .after e) second := by
  induction first generalizing e with
  | nil => rfl
  | cons m rest ih => simp only [List.cons_append, wire, ih, List.foldl_cons, List.append_assoc]

/-- A message that the format can carry. -/
structure Message.Fair (ids : Finset ℕ) (m : Message) : Prop where
  member : m.csid ∈ ids
  range : 2 ≤ m.csid ∧ m.csid ≤ 65599
  short : m.payload.length < 2 ^ 24

/-- The continuations of what is left of a message. -/
def continuing (size fuel : ℕ) (l : Lane) : Bytes :=
  (slices size fuel (l.message.payload.drop l.sent)).flatMap fun c =>
    basicBytes 3 false l.message.csid ++ extension l.delta ++ c

/-- A decoder with everything that was written in its buffer, between two messages. -/
structure Between (ids : Finset ℕ) (d : ChunkDecoder) (lanes : Lanes) (e : ChunkEncoder)
    (queue : List Message) : Prop where
  follows : Follows d.chunkSize ids lanes d
  settled : Settled lanes
  buf : d.buf = wire e queue

/-- A decoder with everything that was written in its buffer. -/
inductive Carried (ids : Finset ℕ) (d : ChunkDecoder) : ChunkEncoder → List Message → Prop
  | between {lanes : Lanes} {e : ChunkEncoder} {queue : List Message} (rests : Between ids d lanes e queue) :
      Carried ids d e queue
  /-- It has taken chunks of the first message. -/
  | amid {lanes : Lanes} {l : Lane} {e : ChunkEncoder} {queue : List Message} {fuel : ℕ}
      (follows : Follows d.chunkSize ids lanes d) (alone : Alone ids l.message.csid l lanes)
      (on : l.sent < l.message.payload.length) (enough : (l.message.payload.drop l.sent).length ≤ fuel)
      (buf : d.buf = continuing e.chunkSize fuel l ++ wire (e.after l.message) queue) :
      Carried ids d e (l.message :: queue)

open ChunkDecoder

variable {ids : Finset ℕ} {d : ChunkDecoder} {e : ChunkEncoder} {m : Message} {queue : List Message}

theorem ChunkDecoder.commit_chunkSize (c : Chunk) (d : ChunkDecoder) : (d.commit c).2.chunkSize = d.chunkSize := by
  unfold commit
  dsimp only
  split <;> rfl

private theorem ChunkDecoder.commit_maxLen (c : Chunk) (d : ChunkDecoder) : (d.commit c).2.maxLen = d.maxLen := by
  unfold commit
  dsimp only
  split <;> rfl

/-- What is left of a message after its next chunk. -/
theorem continuing_advance {size fuel : ℕ} {l : Lane} (on : l.sent < l.message.payload.length) :
    continuing size (fuel + 1) l =
      basicBytes 3 false l.message.csid ++ extension l.delta ++ Lanes.data size l ++
        continuing size fuel (Lanes.advance size l) := by
  have left : l.message.payload.drop l.sent ≠ [] := by
    intro none
    have length := congrArg List.length none
    rw [List.length_drop, List.length_nil] at length
    omega
  have behind : l.message.payload.drop (Lanes.advance size l).sent =
      (l.message.payload.drop l.sent).drop size := by
    rw [Lanes.advance_sent, List.drop_drop]
    by_cases whole : l.sent + size ≤ l.message.payload.length
    · rw [Nat.min_eq_left whole]
    · rw [Nat.min_eq_right (by omega), List.drop_length, List.drop_eq_nil_of_le (by omega)]
  simp only [continuing, slices_cons left, List.flatMap_cons, Lanes.advance_message, Lanes.advance_delta,
    behind, Lanes.data]

/-- Where a chunk of the first message was the last, it is handled; otherwise its rest is to come. -/
theorem carried_advance {lanes : Lanes} {l : Lane} {fuel : ℕ} (follows : Follows d.chunkSize ids lanes d)
    (alone : Alone ids l.message.csid l lanes)
    (enough : (l.message.payload.drop l.sent).length ≤ fuel)
    (buf : d.buf = continuing e.chunkSize fuel l ++ wire (e.after l.message) queue) :
    if l.sent < l.message.payload.length then Carried ids d e (l.message :: queue)
    else ∃ lanes, Between ids d lanes (e.after l.message) queue := by
  split
  · next on => exact .amid follows alone on enough buf
  · next done =>
    have none : l.message.payload.drop l.sent = [] := List.drop_eq_nil_of_le (Nat.le_of_not_lt done)
    have empty : continuing e.chunkSize fuel l = [] := by
      rw [continuing, none]
      cases fuel <;> rfl
    rw [empty, List.nil_append] at buf
    exact ⟨lanes, follows, Lanes.settled_of_alone alone (Nat.le_of_not_lt done), buf⟩

/-- What the next chunk of a lane gives. -/
theorem chunk_messages (size : ℕ) (header : Bytes) (l : Lane) :
    ([Lanes.chunk size header l].filterMap Lanes.Wire.completed : List Message) =
      if (Lanes.advance size l).sent < l.message.payload.length then [] else [l.message] := by
  rw [completed_single, Lanes.advance_sent]
  unfold Lanes.chunk
  dsimp only
  by_cases last : l.message.payload.length ≤ l.sent + size
  · rw [if_pos last, if_neg (by omega)]
    rfl
  · rw [if_neg last, if_pos (by omega)]
    rfl

/-- The next chunk of what is in transit: it is there, it is the first message's, and it completes the
message or leaves the rest of it. -/
structure Takes (ids : Finset ℕ) (d : ChunkDecoder) (e : ChunkEncoder) (m : Message) (queue : List Message)
    (c : Chunk) : Prop where
  whole : d.parse = .ok (some c)
  first : c.header.continuation = false → c.header.typeId = m.typeId ∧ c.header.length = m.payload.length
  learned : c.learned.or d.repeatsExtended ≠ some false
  taken : (d.commit c).1.messages = [] ∧ Carried ids (d.commit c).2 e (m :: queue) ∨
    (d.commit c).1.messages = [m] ∧ ∃ lanes, Between ids (d.commit c).2 lanes (e.after m) queue

theorem Takes.of_advance {lanes : Lanes} {l : Lane} {fuel : ℕ} {c : Chunk} {header : Bytes}
    (whole : d.parse = .ok (some c))
    (first : c.header.continuation = false →
      c.header.typeId = l.message.typeId ∧ c.header.length = l.message.payload.length)
    (learned : c.learned.or d.repeatsExtended ≠ some false)
    (follows : Follows d.chunkSize ids lanes (d.commit c).2)
    (messages : (d.commit c).1.messages =
      [Lanes.chunk d.chunkSize header l].filterMap Lanes.Wire.completed)
    (alone : Alone ids l.message.csid (Lanes.advance d.chunkSize l) lanes)
    (enough : (l.message.payload.drop (Lanes.advance d.chunkSize l).sent).length ≤ fuel)
    (rest : c.rest = continuing e.chunkSize fuel (Lanes.advance d.chunkSize l) ++
      wire (e.after l.message) queue) : Takes ids d e l.message queue c := by
  rw [← commit_chunkSize c d] at follows
  have buf := (commit_buf c d).trans rest
  have next := carried_advance follows (by rw [Lanes.advance_message]; exact alone) enough buf
  rw [chunk_messages] at messages
  refine ⟨whole, first, learned, ?_⟩
  rw [Lanes.advance_message] at next
  split at next
  · next on =>
    rw [if_pos on] at messages
    exact .inl ⟨messages, next⟩
  · next done =>
    rw [if_neg done] at messages
    exact .inr ⟨messages, next⟩

/-- While something is in transit that has all arrived, there is a next chunk. -/
theorem Carried.takes (few : ids.card ≤ MAX_CHUNK_STREAMS) (carried : Carried ids d e (m :: queue))
    (fair : m.Fair ids) (inForce : d.chunkSize = e.chunkSize) (habit : d.repeatsExtended ≠ some false) :
    ∃ c, Takes ids d e m queue c := by
  generalize given : m :: queue = all at carried
  cases carried with
  | @between lanes _ _ rests =>
    obtain ⟨follows, settled, buf⟩ := rests
    subst given
    have positive : 0 < d.chunkSize := by rw [inForce]; exact e.positive
    have legal : lanes.Legal (.start 0 false m) := by
      refine ⟨fair.range, fair.short, ?_⟩
      split
      · rfl
      · next l used =>
        exact ⟨settled _ l used, fun none => absurd none (by decide), fun none => absurd none (by decide),
          fun none => absurd none (by decide)⟩
    have short := fair.short
    have room : lanes.held ids + min d.chunkSize m.payload.length ≤ MAX_PENDING_BYTES := by
      rw [Lanes.held_settled settled, MAX_PENDING_BYTES]
      omega
    have now : (Lanes.advance d.chunkSize ⟨m, m.timestamp, 0⟩).sent = min d.chunkSize m.payload.length := by
      rw [Lanes.advance_sent, Nat.zero_add]
    have behind : m.payload.drop (Lanes.advance d.chunkSize ⟨m, m.timestamp, 0⟩).sent =
        m.payload.drop d.chunkSize := by
      rw [now]
      by_cases whole : d.chunkSize ≤ m.payload.length
      · rw [Nat.min_eq_left whole]
      · rw [Nat.min_eq_right (by omega), List.drop_length, List.drop_eq_nil_of_le (by omega)]
    have parts : d.buf = (lanes.write d.chunkSize true (.start 0 false m)).2.flatMap Lanes.Wire.bytes ++
        (continuing e.chunkSize (m.payload.length - 1) (Lanes.advance d.chunkSize ⟨m, m.timestamp, 0⟩) ++
          wire (e.after m) queue) := by
      rw [buf, wire, Lanes.write_eq e fair.range, Lanes.write_start, ← inForce, Lanes.chunks_tail]
      simp only [Lanes.chunk, Lanes.data, List.flatMap_cons, List.flatMap_nil, List.append_nil,
        List.drop_zero, List.append_assoc, continuing, Lanes.advance_message, Lanes.advance_delta, behind]
    obtain ⟨extValue, whole, -⟩ := start_parse follows few fair.member legal room parts
    obtain ⟨c, whole', rest, learned, messages, next⟩ := start_follows follows few fair.member legal room parts
    obtain rfl := Option.some.inj (Except.ok.inj (whole.symm.trans whole'))
    rw [Lanes.write_start] at messages next
    refine ⟨_, @Takes.of_advance ids d e queue _ ⟨m, m.timestamp, 0⟩ _ _ _ whole (fun _ => ⟨rfl, rfl⟩) habit
      next messages ⟨Function.update_self .., ⟨fair.member, fair.range, rfl, Nat.min_le_right .., short⟩, ?_⟩
      ?_ rest⟩
    · intro other l' differ used
      dsimp only at used
      rw [Function.update_of_ne differ] at used
      exact settled other l' used
    · rw [behind, List.length_drop]
      omega
  | @amid lanes l _ _ fuel follows alone on enough buf =>
    obtain ⟨rfl, rfl⟩ := List.cons.inj given
    have positive : 0 < d.chunkSize := by rw [inForce]; exact e.positive
    have short := fair.short
    obtain ⟨turns, rfl⟩ : ∃ turns, fuel = turns + 1 := by
      rw [List.length_drop] at enough
      exact ⟨fuel - 1, by omega⟩
    have room : lanes.held ids + lanes.load d.chunkSize (.next false l.message.csid) ≤ MAX_PENDING_BYTES := by
      rw [Lanes.held_alone alone, Lane.unfinished_of_lt on, Lanes.load, alone.here, MAX_PENDING_BYTES]
      simp only [Option.map_some, Option.getD_some]
      omega
    have known : Habit true l (Lanes.data d.chunkSize l ++
        (continuing e.chunkSize turns (Lanes.advance d.chunkSize l) ++ wire (e.after l.message) queue)) d := by
      rcases knows : d.repeatsExtended with _ | _ | _
      · exact .inr ⟨knows, fun _ never => by contradiction⟩
      · exact absurd knows habit
      · exact .inl knows
    have parts : d.buf = (lanes.write d.chunkSize true (.next false l.message.csid)).2.flatMap
        Lanes.Wire.bytes ++ (continuing e.chunkSize turns (Lanes.advance d.chunkSize l) ++
          wire (e.after l.message) queue) := by
      rw [buf, ← inForce, continuing_advance on, Lanes.write_next alone.here]
      simp only [Lanes.chunk, List.flatMap_cons, List.flatMap_nil, List.append_nil, List.append_assoc]
    obtain ⟨learned, whole, learns⟩ := next_parse follows few alone.here on room known parts
    obtain ⟨c, whole', rest, -, messages, next⟩ := next_follows follows few alone.here on room known parts
    obtain rfl := Option.some.inj (Except.ok.inj (whole.symm.trans whole'))
    rw [Lanes.write_next alone.here] at messages next
    refine ⟨_, Takes.of_advance whole (fun start => by contradiction) ?_ next messages
      (Lanes.alone_advance d.chunkSize alone) ?_ rest⟩
    · show learned.or d.repeatsExtended ≠ _
      rw [learns]
      split
      · exact fun none => by contradiction
      · exact habit
    · rw [Lanes.advance_sent, List.length_drop]
      rw [List.length_drop] at enough
      omega

/-! ## Bytes that have not all arrived, and limits -/

/-- A decoder without limits on the length of messages. -/
def ChunkDecoder.unlimited (d : ChunkDecoder) : ChunkDecoder :=
  { d with maxMediaLen := USIZE_MAX, maxOtherLen := USIZE_MAX }

private theorem commit_unlimited (c : Chunk) (d : ChunkDecoder) :
    d.unlimited.commit c = ((d.commit c).1, (d.commit c).2.unlimited) := by
  have same : d.unlimited.received c = d.received c := rfl
  unfold commit
  rw [same]
  dsimp only
  split <;> rfl

/-- A limit only refuses the first chunk of a message that is too long. -/
theorem parse_unlimited {c : Chunk} (whole : d.unlimited.parse = .ok (some c)) :
    d.parse = .ok (some c) ∨ (∃ e, d.parse = .error e) ∧ c.header.continuation = false ∧
      d.maxLen c.header.typeId < c.header.length := by
  have there := parse_header whole
  unfold parse at whole ⊢
  have buf : d.unlimited.buf = d.buf := rfl
  rw [buf] at whole
  split at whole
  · injections
  · next fmt csid b read =>
    split at whole
    · injections
    · next enough =>
      simp only [if_neg enough]
      split at whole
      · injections
      · next header known =>
        have body : d.readBody header (b.drop (headerLen fmt)) = .ok (some c) := whole
        have same : c.header = header := by
          unfold readBody at body
          split at body
          · injections
          · split at body
            · injections
            · split at body
              · injections
              · obtain rfl := Option.some.inj (Except.ok.inj body)
                rfl
        unfold readHeader at known ⊢
        have streams : d.unlimited.streams = d.streams := rfl
        have stream : d.unlimited.stream csid = d.stream csid := rfl
        rw [streams, stream] at known
        split at known
        · injections
        · next begun =>
          split at known
          · injections
          · next room =>
            dsimp only at known
            split at known
            · injections
            · have filled : d.fillHeader fmt csid (b.take (headerLen fmt)) = header := Except.ok.inj known
              rw [if_neg begun, if_neg room]
              dsimp only
              rw [filled]
              by_cases exceeds : header.continuation = false ∧ d.maxLen header.typeId < header.length
              · rw [if_pos exceeds, same]
                exact .inr ⟨⟨_, rfl⟩, exceeds⟩
              · rw [if_neg exceeds]
                exact .inl body

/-- What one side has written and the other has not handled: `x` is still to arrive, and the sender will
write with `last`. -/
structure Transit (ids : Finset ℕ) (d : ChunkDecoder) (x : Bytes) (e : ChunkEncoder) (queue : List Message)
    (last : ChunkEncoder) : Prop where
  carried : Carried ids (d.push x).unlimited e queue
  fair : ∀ m ∈ queue, m.Fair ids
  habit : d.repeatsExtended ≠ some false
  last : queue.foldl .after e = last

/-- What a call of `next_message` makes of it. -/
def Goes (ids : Finset ℕ) (limit : UInt8 → ℕ) (x : Bytes) (e : ChunkEncoder) (queue : List Message)
    (last : ChunkEncoder) : Except ChunkError (Option Message) × ChunkDecoder → Prop
  | (.ok none, d') => Transit ids d' x e queue last ∧ d'.chunkSize = e.chunkSize ∧ (x = [] → queue = [])
  | (.ok (some m), d') => ∃ rest lanes, queue = m :: rest ∧ Transit ids d' x (e.after m) rest last ∧
      Between ids (d'.push x).unlimited lanes (e.after m) rest ∧ d'.chunkSize = e.chunkSize
  | (.error _, _) => ∃ m rest, queue = m :: rest ∧ limit m.typeId < m.payload.length

theorem follows_push {size : ℕ} {lanes : Lanes} (follows : Follows size ids lanes d) (x : Bytes) :
    Follows size ids lanes (d.push x) :=
  ⟨follows.chunkSize, follows.limits, follows.absent, follows.present, follows.known, follows.pending⟩

/-- More messages are written behind those in transit. -/
theorem Carried.push (carried : Carried ids d e queue) (messages : List Message) :
    Carried ids (d.push (wire (queue.foldl .after e) messages)) e (queue ++ messages) := by
  cases carried with
  | between rests =>
    refine .between ⟨follows_push rests.follows _, rests.settled, ?_⟩
    rw [wire_append, ← rests.buf]
    rfl
  | @amid lanes l _ rest fuel follows alone on enough buf =>
    have behind : (d.push (wire ((l.message :: rest).foldl .after e) messages)).buf =
        continuing e.chunkSize fuel l ++ wire (e.after l.message) (rest ++ messages) := by
      rw [wire_append, ← List.append_assoc, ← buf]
      rfl
    exact .amid (follows_push follows _) alone on enough behind

/-- Between two messages the chunk size may change. -/
theorem Between.retune {lanes : Lanes} (rests : Between ids d lanes e queue) (size : ℕ) :
    Between ids { d with chunkSize := size } lanes e queue :=
  ⟨⟨rfl, rests.follows.limits, rests.follows.absent, rests.follows.present, rests.follows.known,
    rests.follows.pending⟩, rests.settled, rests.buf⟩

/-- Nothing in transit is no bytes. -/
theorem Carried.buf_nil (carried : Carried ids d e []) : d.buf = [] := by
  cases carried with
  | between rests => exact rests.buf

/-- The messages in transit are given in order, each once it has arrived. -/
theorem Transit.next {x : Bytes} {last : ChunkEncoder} (few : ids.card ≤ MAX_CHUNK_STREAMS)
    (transit : Transit ids d x e queue last) (inForce : d.chunkSize = e.chunkSize) :
    Goes ids d.maxLen x e queue last d.nextMessage := by
  generalize same : d.maxLen = limit
  induction size : d.buf.length using Nat.strong_induction_on generalizing d with
  | _ size ih =>
    rw [nextMessage_eq]
    cases queue with
    | nil =>
      have empty : d.buf ++ x = [] := transit.carried.buf_nil
      rw [parse_empty (List.append_eq_nil_iff.mp empty).1]
      exact ⟨transit, inForce, fun _ => rfl⟩
    | cons m rest =>
      obtain ⟨c', takes⟩ := transit.carried.takes few (transit.fair m (List.mem_cons_self ..)) inForce
        transit.habit
      have found := parse_unlimited takes.whole
      cases whole : d.parse with
      | error e =>
        have again := parse_push (by rw [whole]; exact fun none => by contradiction) x
        rw [whole] at again
        rw [again] at found
        obtain found | ⟨-, start, exceeds⟩ := found
        · contradiction
        · obtain ⟨typeId, length⟩ := takes.first start
          rw [typeId, length] at exceeds
          exact ⟨m, rest, rfl, same ▸ exceeds⟩
      | ok result =>
        cases result with
        | none =>
          refine ⟨transit, inForce, ?_⟩
          rintro rfl
          rw [show d.push [] = d from congrArg (fun b => { d with buf := b }) (List.append_nil d.buf),
            whole] at found
          obtain found | ⟨⟨e, found⟩, -⟩ := found <;> injections
        | some c =>
          have more := parse_push (by rw [whole]; exact fun none => by injections) x
          rw [whole] at more
          rw [more] at found
          obtain found | ⟨⟨e, found⟩, -⟩ := found
          · obtain rfl : c.push x = c' := Option.some.inj (Except.ok.inj found)
            have shorter := parse_length whole
            have committed : (d.push x).unlimited.commit (c.push x) =
                ((d.commit c).1, ((d.commit c).2.push x).unlimited) := by
              rw [commit_unlimited, commit_push]
            have taken := takes.taken
            have habit : (d.commit c).2.repeatsExtended ≠ some false := by
              rw [commit_repeats]
              exact takes.learned
            have kept := (commit_chunkSize c d).trans inForce
            have buf := commit_buf c d
            have limits := (commit_maxLen c d).trans same
            rw [committed] at taken
            have complete := commit_result c d
            dsimp only
            revert taken habit kept buf limits complete
            rcases d.commit c with ⟨_ | _ | m', next⟩ <;> intro taken habit kept buf limits complete
            · exact absurd rfl complete
            · obtain ⟨-, carried⟩ | ⟨messages, -⟩ := taken
              · refine ih next.buf.length ?_ ⟨carried, transit.fair, habit, transit.last⟩ kept limits rfl
                rw [buf, ← size]
                exact shorter
              · exact absurd messages (by simp [ChunkResult.messages])
            · obtain ⟨messages, -⟩ | ⟨messages, lanes, rests⟩ := taken
              · exact absurd messages (by simp [ChunkResult.messages])
              · obtain rfl : m' = m := (List.cons.inj messages).1
                have others := fun x member => transit.fair x (List.mem_cons_of_mem _ member)
                exact ⟨rest, lanes, rfl, ⟨.between rests, others, habit, transit.last⟩, rests, kept⟩
          · contradiction

/-! ## Writing and feeding -/

/-- A message is a byte at least: its type is among them. -/
theorem write_some (e : ChunkEncoder) (m : Message) : e.write m ≠ [] := by
  intro none
  have member : m.typeId ∈ e.write m := by
    unfold ChunkEncoder.write
    dsimp only
    split <;> simp only [List.mem_append, List.mem_singleton, or_true, true_or]
  rw [none] at member
  contradiction

theorem wire_nil {messages : List Message} (none : wire e messages = []) : messages = [] := by
  cases messages with
  | nil => rfl
  | cons m rest => exact absurd (List.append_eq_nil_iff.mp none).1 (write_some e m)

/-- A link has written some messages more. -/
structure Wrote (l l' : Link) (messages : List Message) : Prop where
  out : l'.out = l.out ++ wire l.encoder messages
  encoder : l'.encoder = messages.foldl .after l.encoder

namespace Wrote

variable {l l' l'' : Link} {first second : List Message}

theorem refl (l : Link) : Wrote l l [] := ⟨(List.append_nil _).symm, rfl⟩

theorem of_eq (out : l'.out = l.out) (encoder : l'.encoder = l.encoder) : Wrote l l' [] :=
  ⟨out.trans (List.append_nil _).symm, encoder⟩

theorem trans (early : Wrote l l' first) (late : Wrote l' l'' second) : Wrote l l'' (first ++ second) := by
  constructor
  · rw [late.out, early.out, early.encoder, wire_append, List.append_assoc]
  · rw [late.encoder, early.encoder, List.foldl_append]

theorem write (l : Link) (same : m.typeId ≠ SET_CHUNK_SIZE) : Wrote l (l.write m) [m] := by
  constructor
  · simp only [Link.write, wire, List.append_nil]
  · simp only [Link.write, List.foldl_cons, List.foldl_nil, ChunkEncoder.after, if_neg same]

theorem setOutChunkSize (size : UInt32) (l : Link) :
    Wrote l (l.setOutChunkSize size) [.u32Control SET_CHUNK_SIZE size] := by
  have value : be32 (putU32 size) = size := by
    have read := be32_bigEndian size []
    rwa [List.append_nil, ← putU32_eq] at read
  constructor
  · simp only [Link.setOutChunkSize, Link.write, wire, List.append_nil]
  · simp only [Link.setOutChunkSize, List.foldl_cons, List.foldl_nil, ChunkEncoder.after,
      Message.u32Control, if_true, value]

end Wrote

/-- What flows from a side to the other: `x` is still to arrive of the messages of `queue`. -/
def Flows (ids : Finset ℕ) (d : ChunkDecoder) (x : Bytes) (queue : List Message) (last : ChunkEncoder) :
    Prop := ∃ e : ChunkEncoder, d.chunkSize = e.chunkSize ∧ Transit ids d x e queue last

namespace Flows

variable {x y : Bytes} {last : ChunkEncoder}

theorem wrote {l l' : Link} {messages : List Message} (flows : Flows ids d (x ++ l.out) queue l.encoder)
    (wrote : Wrote l l' messages) (fair : ∀ m ∈ messages, m.Fair ids) :
    Flows ids d (x ++ l'.out) (queue ++ messages) l'.encoder := by
  obtain ⟨e, inForce, transit⟩ := flows
  refine ⟨e, inForce, ?_, fun m member => ?_, transit.habit, ?_⟩
  · have more : (d.push (x ++ l'.out)).unlimited =
        (d.push (x ++ l.out)).unlimited.push (wire l.encoder messages) := by
      rw [wrote.out, ← List.append_assoc, push_append]
      rfl
    rw [more, ← transit.last]
    exact transit.carried.push messages
  · exact (List.mem_append.mp member).elim (transit.fair m) (fair m)
  · rw [List.foldl_append, transit.last, wrote.encoder]

/-- Before anything is written. -/
theorem start (ids : Finset ℕ) (media other : ℕ) :
    Flows ids { ChunkDecoder.new with maxMediaLen := media, maxOtherLen := other } [] [] .new := by
  refine ⟨.new, rfl, @Carried.between _ _ (fun _ => none) _ _ ⟨?_, fun _ _ used => by contradiction, rfl⟩, ?_, ?_, rfl⟩
  · refine ⟨rfl, ⟨rfl, rfl⟩, fun _ => AList.notMem_empty _, fun used => by contradiction,
      fun used => absurd used (AList.notMem_empty _), ?_⟩
    exact (Lanes.held_settled fun _ _ used => by contradiction).symm
  · exact fun _ member => absurd member List.not_mem_nil
  · exact fun none => by contradiction

/-- The limits are no part of it. -/
theorem limit (flows : Flows ids d x queue last) (media other : ℕ) :
    Flows ids { d with maxMediaLen := media, maxOtherLen := other } x queue last := by
  obtain ⟨e, inForce, transit⟩ := flows
  exact ⟨e, inForce, transit.carried, transit.fair, transit.habit, transit.last⟩

/-- Bytes arrive. -/
theorem arrive (flows : Flows ids d (x ++ y) queue last) : Flows ids (d.push x) y queue last := by
  obtain ⟨e, inForce, transit⟩ := flows
  refine ⟨e, inForce, ?_, transit.fair, transit.habit, transit.last⟩
  rw [← push_append]
  exact transit.carried

end Flows

/-- What a side must do for what flows to it: a message that it handles retunes the decoder as the sender
has retuned the encoder, and what is known of the side, of the messages that come and of the events so far
is kept. -/
structure Follower {σ ev : Type} (side : Side σ ev) (known : σ → List Message → List ev → Prop) : Prop where
  link_withLink : ∀ l s, side.link (side.withLink l s) = l
  pulled : ∀ {s queue log}, known s queue log → known (side.pulled s) queue log
  handles : ∀ {s m queue log s' events} {e : ChunkEncoder}, known s (m :: queue) log →
    (side.link s).decoder.nextMessage.1 = .ok (some m) →
    (side.link (side.pulled s)).decoder.chunkSize = e.chunkSize →
    side.handle m (side.pulled s) = .ok (s', events) → known s' queue (log ++ events) ∧
      (side.link s').decoder =
        { (side.link (side.pulled s)).decoder with chunkSize := (e.after m).chunkSize }

/-- A piece that fails does so at a message that is over the limit, or that cannot be handled. -/
def Fails {σ ev : Type} (side : Side σ ev) (known : σ → List Message → List ev → Prop) : Prop :=
  ∃ s m queue log, known s (m :: queue) log ∧
    ((side.link s).decoder.maxLen m.typeId < m.payload.length ∨ ∃ e, side.handle m s = .error e)

variable {σ ev : Type} {side : Side σ ev} {known : σ → List Message → List ev → Prop}

/-- A side that is fed handles the messages in transit in order. -/
theorem Follower.feedLoop (follower : Follower side known) (few : ids.card ≤ MAX_CHUNK_STREAMS) {fuel : ℕ}
    {s : σ} {log : List ev} {x : Bytes} {last : ChunkEncoder}
    (enough : (side.link s).decoder.buf.length < fuel)
    (flows : Flows ids (side.link s).decoder x queue last) (start : known s queue log) :
    ((side.feedLoop fuel s).outcome = none ∧
      ∃ rest, Flows ids (side.link (side.feedLoop fuel s).session).decoder x rest last ∧
        known (side.feedLoop fuel s).session rest (log ++ (side.feedLoop fuel s).raised) ∧
        (x = [] → rest = [])) ∨
      ((∃ e, (side.feedLoop fuel s).outcome = some e) ∧ Fails side known) := by
  induction fuel generalizing s queue log with
  | zero => omega
  | succ fuel ih =>
    obtain ⟨e, inForce, transit⟩ := flows
    have goes := transit.next few inForce
    have gives := (side.link s).decoder.nextMessage_gives
    have decoder : (side.link (side.pulled s)).decoder = (side.link s).decoder.nextMessage.2 :=
      congrArg Link.decoder (follower.link_withLink _ s)
    have pulled := follower.pulled start
    unfold Side.feedLoop
    rcases next : (side.link s).decoder.nextMessage with ⟨e' | _ | m, d⟩
    · rw [next] at goes
      obtain ⟨m, rest, rfl, exceeds⟩ := goes
      exact .inr ⟨⟨_, rfl⟩, s, m, rest, log, start, .inl exceeds⟩
    · rw [next] at goes decoder
      obtain ⟨later, kept, done⟩ := goes
      refine .inl ⟨rfl, queue, ?_, ?_, done⟩
      · dsimp only
        rw [decoder]
        exact ⟨e, kept, later⟩
      · show known (side.pulled s) queue (log ++ [])
        rw [List.append_nil]
        exact pulled
    · rw [next] at goes gives decoder
      obtain ⟨rest, lanes, rfl, later, rests, kept⟩ := goes
      dsimp only
      cases handled : side.handle m (side.pulled s) with
      | error e' => exact .inr ⟨⟨_, rfl⟩, _, m, rest, log, pulled, .inr ⟨_, handled⟩⟩
      | ok result =>
        obtain ⟨s', events⟩ := result
        have size : (side.link (side.pulled s)).decoder.chunkSize = e.chunkSize := by
          rw [decoder]
          exact kept
        obtain ⟨known', tuned⟩ := follower.handles start (congrArg Prod.fst next) size handled
        rw [decoder] at tuned
        dsimp only at tuned
        have shorter := gives.1
        have flows' : Flows ids (side.link s').decoder x rest last := by
          rw [tuned]
          exact ⟨e.after m, rfl, .between (rests.retune _), later.fair, later.habit, later.last⟩
        have loop := ih (by rw [tuned]; show d.buf.length < fuel; omega) flows' known'
        rw [List.append_assoc] at loop
        exact loop

end StreamDelay.Rtmp
