import Mathlib.Tactic.Common
import StreamDelay.Proofs.Transit
import StreamDelay.Proofs.Amf0

/-! # Control messages between the two sides

The control messages a side of a session sends are small, set chunk sizes that are allowed, and abort
nothing: the other side retunes its decoder or answers with another of them.
-/

namespace StreamDelay.Rtmp

open Foundations

/-- The chunk streams of a session. -/
def sessionIds : Finset ℕ := {2, 3, 4, 5, 6, 8}

theorem sessionIds_few : sessionIds.card ≤ MAX_CHUNK_STREAMS := by decide

namespace Message

/-- A protocol control message. -/
def isControl (m : Message) : Bool :=
  m.typeId = SET_CHUNK_SIZE || m.typeId = ABORT || m.typeId = ACKNOWLEDGEMENT ||
    m.typeId = WINDOW_ACK_SIZE || m.typeId = SET_PEER_BANDWIDTH || m.typeId = USER_CONTROL

/-- A control message that a side of a session sends. -/
structure Tame (m : Message) : Prop where
  control : m.isControl = true
  kept : m.typeId ≠ ABORT
  csid : m.csid = CSID_CONTROL
  short : 4 ≤ m.payload.length ∧ m.payload.length ≤ 6
  size : m.typeId = SET_CHUNK_SIZE →
    1 ≤ (be32 m.payload).toNat ∧ (be32 m.payload).toNat ≤ MAX_CHUNK_SIZE

theorem Tame.fair {m : Message} (tame : m.Tame) : m.Fair sessionIds := by
  have csid := tame.csid
  have short := tame.short
  refine ⟨?_, ?_, by omega⟩
  · rw [csid]
    decide
  · rw [csid]
    decide

theorem be32_putU32 (v : UInt32) : be32 (putU32 v) = v := by
  have read := Amf0.be32_putU32 v []
  rwa [List.append_nil] at read

/-- Any value may be sent in a control message that sets no chunk size. -/
theorem tame_u32Control {typeId : UInt8} (control : (u32Control typeId 0).isControl = true)
    (kept : typeId ≠ ABORT) (other : typeId ≠ SET_CHUNK_SIZE) (v : UInt32) : (u32Control typeId v).Tame :=
  ⟨control, kept, rfl, ⟨Nat.le_refl 4, show 4 ≤ 6 by decide⟩, fun same => absurd same other⟩

theorem tame_setChunkSize {v : UInt32} (range : 1 ≤ v.toNat ∧ v.toNat ≤ MAX_CHUNK_SIZE) :
    (u32Control SET_CHUNK_SIZE v).Tame := by
  refine ⟨rfl, show SET_CHUNK_SIZE ≠ ABORT by decide, rfl, ⟨Nat.le_refl 4, show 4 ≤ 6 by decide⟩, fun _ => ?_⟩
  rw [u32Control, be32_putU32]
  exact range

theorem tame_peerBandwidth (size : UInt32) (limit : UInt8) : (peerBandwidth size limit).Tame :=
  ⟨rfl, show SET_PEER_BANDWIDTH ≠ ABORT by decide, rfl, ⟨show 4 ≤ 5 by decide, show 5 ≤ 6 by decide⟩,
    fun same => absurd same (show SET_PEER_BANDWIDTH ≠ SET_CHUNK_SIZE by decide)⟩

theorem tame_userControl (event : UInt16) (data : UInt32) : (userControl event data).Tame :=
  ⟨rfl, show USER_CONTROL ≠ ABORT by decide, rfl, ⟨show 4 ≤ 6 by decide, Nat.le_refl 6⟩,
    fun same => absurd same (show USER_CONTROL ≠ SET_CHUNK_SIZE by decide)⟩

end Message

variable {m : Message} {l l' : Link}

/-- What is not a control message is left to the session. -/
theorem handleControl_other (other : m.isControl = false) : l.handleControl m = .ok (false, l) := by
  simp only [Message.isControl, Bool.or_eq_false_iff, decide_eq_false_iff_not] at other
  obtain ⟨⟨⟨⟨⟨chunkSize, abort⟩, ack⟩, window⟩, bandwidth⟩, user⟩ := other
  unfold Link.handleControl
  rw [if_neg chunkSize, if_neg abort, if_neg ack, if_neg window, if_neg bandwidth, if_neg user]

/-- A side answers with at most one control message, and retunes its decoder. -/
structure Controlled (l : Link) (m : Message) (l' : Link) (replies : List Message) : Prop where
  wrote : Wrote l l' replies
  tame : ∀ reply ∈ replies, reply.Tame
  tuned : ∀ e : ChunkEncoder, l.decoder.chunkSize = e.chunkSize →
    l'.decoder = { l.decoder with chunkSize := (e.after m).chunkSize }

theorem controlled_of_decoder {replies : List Message} (wrote : Wrote l l' replies)
    (tame : ∀ reply ∈ replies, reply.Tame) (other : m.typeId ≠ SET_CHUNK_SIZE)
    (same : l'.decoder = l.decoder) : Controlled l m l' replies := by
  refine ⟨wrote, tame, fun e inForce => ?_⟩
  rw [same, ChunkEncoder.after, if_neg other, ← inForce]

/-- The mask of a chunk size keeps all that are allowed. -/
theorem masked_of_small {v : UInt32} (small : v.toNat < 2 ^ 31) : (v &&& 0x7fffffff).toNat = v.toNat := by
  have mask : (0x7fffffff : UInt32).toNat = 2 ^ 31 - 1 := by decide
  rw [UInt32.toNat_and, mask, Nat.and_two_pow_sub_one_eq_mod, Nat.mod_eq_of_lt small]

section

variable {v : UInt32} (kept : m.typeId ≠ ABORT)

private theorem handleControl_size (sizes : m.typeId = SET_CHUNK_SIZE) (read : readU32 m.payload = some v)
    (masked : (v &&& 0x7fffffff).toNat = v.toNat) (allowed : ¬(v.toNat = 0 ∨ MAX_CHUNK_SIZE < v.toNat)) :
    l.handleControl m = .ok (true, { l with decoder := { l.decoder with chunkSize := v.toNat } }) := by
  unfold Link.handleControl
  simp only [if_pos sizes, read, ChunkDecoder.setChunkSize, masked, if_neg allowed]

include kept

private theorem handleControl_ack (ack : m.typeId = ACKNOWLEDGEMENT) : l.handleControl m = .ok (true, l) := by
  unfold Link.handleControl
  rw [if_neg (by rw [ack]; decide), if_neg kept, if_pos ack]

private theorem handleControl_window (window : m.typeId = WINDOW_ACK_SIZE) (read : readU32 m.payload = some v) :
    l.handleControl m = .ok (true, { l with ackWindow := v }) := by
  unfold Link.handleControl
  rw [if_neg (by rw [window]; decide), if_neg kept, if_neg (by rw [window]; decide), if_pos window, read]

private theorem handleControl_bandwidth (bandwidth : m.typeId = SET_PEER_BANDWIDTH)
    (read : readU32 m.payload = some v) :
    l.handleControl m = .ok (true, l.write (.u32Control WINDOW_ACK_SIZE v)) := by
  unfold Link.handleControl
  rw [if_neg (by rw [bandwidth]; decide), if_neg kept, if_neg (by rw [bandwidth]; decide),
    if_neg (by rw [bandwidth]; decide), if_pos bandwidth, read]

private theorem handleControl_user (user : m.typeId = USER_CONTROL) {event : UInt16}
    (read : readUserControl m.payload = some (event, v)) :
    l.handleControl m =
      .ok (true, if event = UC_PING_REQUEST then l.write (.userControl UC_PING_RESPONSE v) else l) := by
  unfold Link.handleControl
  rw [if_neg (by rw [user]; decide), if_neg kept, if_neg (by rw [user]; decide),
    if_neg (by rw [user]; decide), if_neg (by rw [user]; decide), if_pos user, read]

end

theorem handleControl_tame (tame : m.Tame) (l : Link) :
    ∃ l' replies, l.handleControl m = .ok (true, l') ∧ Controlled l m l' replies := by
  have long : readU32 m.payload = some (be32 m.payload) := if_pos tame.short.1
  have silent : ∀ reply ∈ ([] : List Message), reply.Tame := fun _ member => absurd member List.not_mem_nil
  have one {reply : Message} (tame : reply.Tame) : ∀ r ∈ [reply], r.Tame := fun r member =>
    List.mem_singleton.mp member ▸ tame
  have control := tame.control
  simp only [Message.isControl, Bool.or_eq_true, decide_eq_true_eq] at control
  rcases control with ((((sizes | abort) | ack) | window) | bandwidth) | user
  · have range := tame.size sizes
    have masked := masked_of_small (Nat.lt_of_le_of_lt range.2 (by decide))
    refine ⟨_, [], handleControl_size sizes long masked (by omega), .of_eq rfl rfl, silent, fun e _ => ?_⟩
    have same : (ChunkEncoder.setChunkSize (be32 m.payload).toNat).chunkSize = (be32 m.payload).toNat := by
      simp only [ChunkEncoder.setChunkSize]
      omega
    rw [ChunkEncoder.after, if_pos sizes, same]
  · exact absurd abort tame.kept
  · exact ⟨l, [], handleControl_ack tame.kept ack,
      controlled_of_decoder (.refl l) silent (by rw [ack]; decide) rfl⟩
  · exact ⟨_, [], handleControl_window tame.kept window long,
      controlled_of_decoder (.of_eq rfl rfl) silent (by rw [window]; decide) rfl⟩
  · have reply : (Message.u32Control WINDOW_ACK_SIZE (be32 m.payload)).Tame :=
      Message.tame_u32Control rfl (by decide) (by decide) _
    exact ⟨_, _, handleControl_bandwidth tame.kept bandwidth long,
      controlled_of_decoder (.write l (show WINDOW_ACK_SIZE ≠ SET_CHUNK_SIZE by decide)) (one reply)
        (by rw [bandwidth]; decide) rfl⟩
  · have read : readUserControl m.payload =
        some (Amf0.be16 m.payload, (readU32 (m.payload.drop 2)).getD 0) :=
      if_pos (Nat.le_trans (by decide) tame.short.1)
    have handled := handleControl_user (l := l) tame.kept user read
    have other : m.typeId ≠ SET_CHUNK_SIZE := by rw [user]; decide
    split at handled
    · exact ⟨_, _, handled, controlled_of_decoder
        (.write l (show USER_CONTROL ≠ SET_CHUNK_SIZE by decide))
        (one (Message.tame_userControl UC_PING_RESPONSE _)) other rfl⟩
    · exact ⟨l, [], handled, controlled_of_decoder (.refl l) silent other rfl⟩

/-- Receiving bytes writes an acknowledgement at most. -/
theorem received_wrote (n : ℕ) (l : Link) :
    ∃ replies, Wrote l (l.received n) replies ∧ ∀ reply ∈ replies, reply.Tame := by
  unfold Link.received
  dsimp only
  split
  · have ack (v : UInt32) : (Message.u32Control ACKNOWLEDGEMENT v).Tame :=
      Message.tame_u32Control rfl (by decide) (by decide) v
    refine ⟨[.u32Control ACKNOWLEDGEMENT (l.bytesIn + .ofNat n).toUInt32], ⟨?_, rfl⟩, ?_⟩
    · simp only [Link.write, wire, List.append_nil]
    · intro reply member
      rw [List.mem_singleton.mp member]
      exact ack _
  · exact ⟨[], .of_eq rfl rfl, fun _ member => absurd member List.not_mem_nil⟩

/-! ## What the other messages of a queue are -/

/-- The messages of a queue that are no control messages, the others being tame. -/
structure Carries (queue signals : List Message) : Prop where
  signals : queue.filter (fun m => !m.isControl) = signals
  tame : ∀ m ∈ queue, m.isControl = true → m.Tame

namespace Carries

variable {queue signals more : List Message}

theorem nil : Carries [] [] := ⟨rfl, fun _ member => absurd member List.not_mem_nil⟩

theorem append {messages : List Message} (carries : Carries queue signals) (late : Carries messages more) :
    Carries (queue ++ messages) (signals ++ more) := by
  constructor
  · rw [List.filter_append, carries.signals, late.signals]
  · intro m member
    exact (List.mem_append.mp member).elim (carries.tame m) (late.tame m)

theorem of_tame {messages : List Message} (tame : ∀ m ∈ messages, m.Tame) : Carries messages [] := by
  refine ⟨List.filter_eq_nil_iff.mpr fun m member => ?_, fun m member _ => tame m member⟩
  rw [(tame m member).control]
  decide

theorem of_signals {messages : List Message} (others : ∀ m ∈ messages, m.isControl = false) :
    Carries messages messages := by
  refine ⟨List.filter_eq_self.mpr fun m member => ?_, fun m member control => ?_⟩
  · rw [others m member]
    rfl
  · rw [others m member] at control
    contradiction

/-- The first message of a queue is a tame one, or the first signal. -/
theorem head (carries : Carries (m :: queue) signals) :
    m.Tame ∧ Carries queue signals ∨
      m.isControl = false ∧ ∃ rest, signals = m :: rest ∧ Carries queue rest := by
  have others := fun x member => carries.tame x (List.mem_cons_of_mem m member)
  have signals := carries.signals
  cases control : m.isControl with
  | true =>
    rw [List.filter_cons, control] at signals
    exact .inl ⟨carries.tame m (List.mem_cons_self ..) control, signals, others⟩
  | false =>
    rw [List.filter_cons, control] at signals
    exact .inr ⟨rfl, _, signals.symm, rfl, others⟩

end Carries

end StreamDelay.Rtmp
