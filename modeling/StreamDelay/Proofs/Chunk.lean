import Mathlib.Tactic.Common
import Mathlib.Data.List.GetD
import StreamDelay.Rtmp.Chunk

/-! # Decoding what arrives in pieces

A chunk is read from the front of the buffer or not at all: what is read, and every error, is the same
whatever arrives behind it. Pulling from a decoder is therefore the same before and after a push as
all at once.
-/

namespace StreamDelay.Rtmp

theorem u24_append {b : Bytes} (enough : 3 ≤ b.length) (x : Bytes) : u24 (b ++ x) = u24 b := by
  simp only [u24, List.getD_append _ _ _ _ (by omega : 0 < b.length),
    List.getD_append _ _ _ _ (by omega : 1 < b.length),
    List.getD_append _ _ _ _ (by omega : 2 < b.length)]

theorem be32_append {b : Bytes} (enough : 4 ≤ b.length) (x : Bytes) : be32 (b ++ x) = be32 b := by
  simp only [be32, List.getD_append _ _ _ _ (by omega : 0 < b.length),
    List.getD_append _ _ _ _ (by omega : 1 < b.length),
    List.getD_append _ _ _ _ (by omega : 2 < b.length),
    List.getD_append _ _ _ _ (by omega : 3 < b.length)]

private theorem basicHeader_append {b rest : Bytes} {fmt csid : ℕ}
    (read : basicHeader b = some (fmt, csid, rest)) (x : Bytes) :
    basicHeader (b ++ x) = some (fmt, csid, rest ++ x) := by
  cases b with
  | nil => contradiction
  | cons b0 b =>
    simp only [basicHeader, List.cons_append] at read ⊢
    split at read
    · cases b with
      | nil => contradiction
      | cons b1 b =>
        simp only [Option.some.injEq, Prod.mk.injEq] at read
        obtain ⟨rfl, rfl, rfl⟩ := read
        rfl
    · cases b with
      | nil => contradiction
      | cons b1 b =>
        cases b with
        | nil => contradiction
        | cons b2 b =>
          simp only [Option.some.injEq, Prod.mk.injEq] at read
          obtain ⟨rfl, rfl, rfl⟩ := read
          rfl
    · simp only [Option.some.injEq, Prod.mk.injEq] at read
      obtain ⟨rfl, rfl, rfl⟩ := read
      rfl

private theorem basicHeader_length {b rest : Bytes} {fmt csid : ℕ}
    (read : basicHeader b = some (fmt, csid, rest)) : rest.length < b.length := by
  cases b with
  | nil => contradiction
  | cons b0 b =>
    simp only [basicHeader] at read
    split at read
    · cases b with
      | nil => contradiction
      | cons b1 b =>
        simp only [Option.some.injEq, Prod.mk.injEq] at read
        obtain ⟨rfl, rfl, rfl⟩ := read
        simp only [List.length_cons]
        omega
    · cases b with
      | nil => contradiction
      | cons b1 b =>
        cases b with
        | nil => contradiction
        | cons b2 b =>
          simp only [Option.some.injEq, Prod.mk.injEq] at read
          obtain ⟨rfl, rfl, rfl⟩ := read
          simp only [List.length_cons]
          omega
    · simp only [Option.some.injEq, Prod.mk.injEq] at read
      obtain ⟨rfl, rfl, rfl⟩ := read
      simp only [List.length_cons]
      omega

/-- An extension with more bytes behind it. -/
def Extension.push (x : Bytes) (ext : Extension) : Extension := { ext with rest := ext.rest ++ x }

def Chunk.push (x : Bytes) (c : Chunk) : Chunk := { c with rest := c.rest ++ x }

/-- What is read from some bytes is read from them with more behind. -/
structure Stable (read : Bytes → Option Extension) : Prop where
  more : ∀ {b ext}, read b = some ext → ∀ x, read (b ++ x) = some (ext.push x)
  shorter : ∀ {b ext}, read b = some ext → ext.rest.length ≤ b.length

/-- Reading a field of four bytes once they are there. -/
theorem stable_field {f : Bytes → Extension}
    (same : ∀ b x, 4 ≤ b.length → f (b ++ x) = (f b).push x)
    (shorter : ∀ b, (f b).rest.length ≤ b.length) :
    Stable fun b => if b.length < 4 then none else some (f b) := by
  constructor
  · intro b ext read x
    split at read
    · contradiction
    · next enough =>
      rw [if_neg (by rw [List.length_append]; omega), same b x (by omega), Option.some.inj read]
  · intro b ext read
    split at read
    · contradiction
    · rw [← Option.some.inj read]
      exact shorter b

theorem drop_four {b : Bytes} (enough : 4 ≤ b.length) (x : Bytes) :
    (b ++ x).drop 4 = b.drop 4 ++ x :=
  List.drop_append_of_le_length enough

namespace ChunkDecoder

variable {d : ChunkDecoder}

@[simp] theorem push_buf (x : Bytes) (d : ChunkDecoder) : (d.push x).buf = d.buf ++ x := rfl
@[simp] theorem push_pending (x : Bytes) (d : ChunkDecoder) : (d.push x).pending = d.pending := rfl
@[simp] theorem push_take (x : Bytes) (header : Header) (d : ChunkDecoder) :
    (d.push x).take header = d.take header := rfl
@[simp] theorem push_dropped (x : Bytes) (header : Header) (d : ChunkDecoder) :
    (d.push x).dropped header = d.dropped header := rfl
@[simp] theorem push_readHeader (x : Bytes) (fmt csid : ℕ) (h : Bytes) (d : ChunkDecoder) :
    (d.push x).readHeader fmt csid h = d.readHeader fmt csid h := rfl

theorem push_append (x y : Bytes) (d : ChunkDecoder) : d.push (x ++ y) = (d.push x).push y := by
  simp only [push, List.append_assoc]

theorem readExtension_stable (header : Header) (d : ChunkDecoder) : Stable (d.readExtension header) := by
  have absent (extended : Bool) : Stable fun b =>
      some { extended := extended, extValue := (d.stream header.csid).extValue, rest := b } := by
    constructor
    · intro b ext read x
      rw [← Option.some.inj read]
      rfl
    · intro b ext read
      rw [← Option.some.inj read]
  have shorter (b : Bytes) : (b.drop 4).length ≤ b.length := by
    rw [List.length_drop]
    exact Nat.sub_le ..
  have present : Stable fun b =>
      if b.length < 4 then none
      else some { extended := true, extValue := be32 b, rest := b.drop 4 } := by
    refine stable_field (fun b x enough => ?_) shorter
    simp only [Extension.push, be32_append enough, drop_four enough]
  unfold readExtension
  by_cases full : header.fmt ≤ 2
  · simp only [if_pos full]
    by_cases field : header.tsField = EXTENDED
    · simpa only [if_pos field] using present
    · simpa only [if_neg field] using absent false
  · simp only [if_neg full]
    cases (d.stream header.csid).extended with
    | false => simpa only [Bool.false_eq_true, if_false] using absent false
    | true =>
      cases header.continuation with
      | false => simpa only [Bool.false_eq_true, if_false, if_true] using present
      | true =>
        simp only [if_true]
        match d.repeatsExtended with
        | some true =>
          refine stable_field (fun b x enough => ?_) shorter
          simp only [Extension.push, drop_four enough]
        | some false => exact absent true
        | none =>
          refine stable_field (fun b x enough => ?_) fun b => ?_
          · simp only [Extension.push, be32_append enough, drop_four enough]
            split <;> rfl
          · dsimp only
            split
            · exact shorter b
            · exact Nat.le_refl _

/-- What is read of a chunk, and every error, is there whatever follows. -/
theorem readBody_push {header : Header} {b : Bytes} (there : d.readBody header b ≠ .ok none)
    (x : Bytes) :
    (d.push x).readBody header (b ++ x) = (d.readBody header b).map (·.map (Chunk.push x)) := by
  unfold readBody at there ⊢
  cases read : d.readExtension header b with
  | none =>
    rw [read] at there
    contradiction
  | some ext =>
    have more : (d.push x).readExtension header (b ++ x) = some (ext.push x) :=
      (readExtension_stable header d).more read x
    rw [read] at there
    rw [more]
    simp only [push_take, push_dropped, push_pending] at there ⊢
    by_cases short : ext.rest.length < d.take header
    · rw [if_pos short] at there
      contradiction
    · have enough : d.take header ≤ ext.rest.length := by omega
      simp only [Extension.push, List.length_append, if_neg short,
        if_neg (by omega : ¬ext.rest.length + x.length < d.take header),
        List.take_append_of_le_length enough, List.drop_append_of_le_length enough]
      split <;> rfl

private theorem readBody_length {header : Header} {b : Bytes} {c : Chunk}
    (whole : d.readBody header b = .ok (some c)) : c.rest.length ≤ b.length := by
  unfold readBody at whole
  split at whole
  · injections
  · next ext read =>
    have shorter := (readExtension_stable header d).shorter read
    split at whole
    · injections
    · split at whole
      · injections
      · obtain rfl := Option.some.inj (Except.ok.inj whole)
        rw [List.length_drop]
        omega

theorem parse_push (there : d.parse ≠ .ok none) (x : Bytes) :
    (d.push x).parse = d.parse.map (·.map (Chunk.push x)) := by
  unfold parse at there ⊢
  cases read : basicHeader d.buf with
  | none =>
    rw [read] at there
    contradiction
  | some found =>
    obtain ⟨fmt, csid, b⟩ := found
    have more : basicHeader (d.push x).buf = some (fmt, csid, b ++ x) := basicHeader_append read x
    rw [read] at there
    rw [more]
    dsimp only at there ⊢
    by_cases short : b.length < headerLen fmt
    · rw [if_pos short] at there
      contradiction
    · have long : headerLen fmt ≤ b.length := by omega
      rw [if_neg short] at there ⊢
      rw [if_neg (by rw [List.length_append]; omega), List.take_append_of_le_length long,
        List.drop_append_of_le_length long]
      rw [push_readHeader]
      cases known : d.readHeader fmt csid (b.take (headerLen fmt)) with
      | error e => rfl
      | ok header =>
        rw [known] at there
        exact readBody_push there x

/-- A chunk takes its basic header at least. -/
theorem parse_length {c : Chunk} (whole : d.parse = .ok (some c)) :
    c.rest.length < d.buf.length := by
  unfold parse at whole
  split at whole
  · injections
  · next fmt csid b read =>
    have shorter := basicHeader_length read
    split at whole
    · injections
    · split at whole
      · injections
      · have body := readBody_length whole
        rw [List.length_drop] at body
        omega

theorem commit_push (c : Chunk) (x : Bytes) (d : ChunkDecoder) :
    (d.push x).commit (c.push x) = ((d.commit c).1, (d.commit c).2.push x) := by
  have same : (d.push x).received (c.push x) = d.received c := rfl
  unfold commit
  rw [same]
  dsimp only
  split <;> rfl

theorem commit_result (c : Chunk) (d : ChunkDecoder) : (d.commit c).1 ≠ .needMore := by
  unfold commit
  dsimp only
  split <;> exact ChunkResult.noConfusion

theorem commit_buf (c : Chunk) (d : ChunkDecoder) : (d.commit c).2.buf = c.rest := by
  unfold commit
  dsimp only
  split <;> rfl

/-! ## Pulling until there is no more -/

/-- The loop of `next_message` needs no more turns than there are bytes. -/
theorem nextMessageLoop_enough {fuel : ℕ} (d : ChunkDecoder) (enough : d.buf.length < fuel) :
    nextMessageLoop fuel d = d.nextMessage := by
  unfold nextMessage
  generalize full : d.buf.length + 1 = turns
  have enough' : d.buf.length < turns := by omega
  clear full
  induction fuel generalizing d turns with
  | zero => omega
  | succ fuel ih =>
    cases turns with
    | zero => omega
    | succ turns =>
      simp only [nextMessageLoop, nextChunk]
      cases whole : d.parse with
      | error e => rfl
      | ok found =>
        cases found with
        | none => rfl
        | some c =>
          have shorter := parse_length whole
          have buf := commit_buf c d
          dsimp only
          rcases taken : d.commit c with ⟨result, next⟩
          rw [taken] at buf
          dsimp only at buf
          cases result with
          | needMore => rfl
          | complete m => rfl
          | partialMessage => exact ih next (by rw [buf]; omega) turns (by rw [buf]; omega)

/-- One turn of `next_message`. -/
theorem nextMessage_eq (d : ChunkDecoder) :
    d.nextMessage =
      match d.parse with
      | .error e => (.error e, d)
      | .ok none => (.ok none, d)
      | .ok (some c) =>
        match d.commit c with
        | (.needMore, d) => (.ok none, d)
        | (.partialMessage, d) => d.nextMessage
        | (.complete m, d) => (.ok (some m), d) := by
  conv_lhs => unfold nextMessage
  simp only [nextMessageLoop, nextChunk]
  cases whole : d.parse with
  | error e => rfl
  | ok found =>
    cases found with
    | none => rfl
    | some c =>
      have shorter := parse_length whole
      have buf := commit_buf c d
      dsimp only
      rcases taken : d.commit c with ⟨result, next⟩
      rw [taken] at buf
      dsimp only at buf
      cases result with
      | needMore => rfl
      | complete m => rfl
      | partialMessage => exact nextMessageLoop_enough next (by rw [buf]; omega)

end ChunkDecoder

/-- The message a chunk completes, if it does. -/
def ChunkResult.messages : ChunkResult → List Message
  | complete m => [m]
  | _ => []

/-- Chunk after chunk is taken from a decoder until it needs more, or fails. -/
inductive Drains : ChunkDecoder → List Message → Option ChunkError → ChunkDecoder → Prop
  | dry {d} (short : d.parse = .ok none) : Drains d [] none d
  | failed {d e} (bad : d.parse = .error e) : Drains d [] (some e) d
  | chunk {d d' c messages outcome} (whole : d.parse = .ok (some c))
      (later : Drains (d.commit c).2 messages outcome d') :
      Drains d ((d.commit c).1.messages ++ messages) outcome d'

namespace Drains

variable {d d' : ChunkDecoder} {messages : List Message} {outcome : Option ChunkError}

theorem unique {d'' : ChunkDecoder} {messages' : List Message} {outcome' : Option ChunkError}
    (first : Drains d messages outcome d') (second : Drains d messages' outcome' d'') :
    messages = messages' ∧ outcome = outcome' ∧ d' = d'' := by
  induction first generalizing messages' with
  | dry short =>
    cases second with
    | dry => exact ⟨rfl, rfl, rfl⟩
    | failed bad => rw [short] at bad; injections
    | chunk whole => rw [short] at whole; injections
  | failed bad =>
    cases second with
    | dry short => rw [short] at bad; injections
    | failed bad' =>
      rw [bad] at bad'
      exact ⟨rfl, congrArg some (Except.error.inj bad'), rfl⟩
    | chunk whole => rw [bad] at whole; injections
  | chunk whole later ih =>
    cases second with
    | dry short => rw [short] at whole; injections
    | failed bad => rw [bad] at whole; injections
    | chunk whole' later' =>
      rw [whole] at whole'
      obtain rfl := Option.some.inj (Except.ok.inj whole')
      obtain ⟨rfl, rest⟩ := ih later'
      exact ⟨rfl, rest⟩

/-- What is drained before a push comes before what is drained after it. -/
theorem push {d'' : ChunkDecoder} {messages' : List Message} {outcome' : Option ChunkError} {x : Bytes}
    (first : Drains d messages outcome d') (second : Drains (d'.push x) messages' outcome' d'') :
    Drains (d.push x) (messages ++ messages') outcome' d'' := by
  induction first with
  | dry => exact second
  | failed => exact second
  | @chunk d d' c messages outcome whole later ih =>
    have more := ChunkDecoder.parse_push (by rw [whole]; intro none; injections) x
    rw [whole] at more
    have taken := ChunkDecoder.commit_push c x d
    have drained := Drains.chunk more (by rw [taken]; exact ih second)
    rw [taken] at drained
    rw [List.append_assoc]
    exact drained

/-- An error comes again, whatever is pushed behind it. -/
theorem failed_push {e : ChunkError} (drained : Drains d messages (some e) d') (x : Bytes) :
    Drains (d.push x) messages (some e) (d'.push x) := by
  have again : Drains (d'.push x) [] (some e) (d'.push x) := by
    generalize given : some e = outcome at drained
    induction drained with
    | dry => contradiction
    | failed bad =>
      obtain rfl := Option.some.inj given
      have more := ChunkDecoder.parse_push (by rw [bad]; intro none; injections) x
      rw [bad] at more
      exact .failed more
    | chunk _ _ ih => exact ih given
  simpa only [List.append_nil] using drained.push again

end Drains

namespace ChunkDecoder

/-- What a call of `next_message` gives is what the chunks taken by it give. -/
def Gives (d : ChunkDecoder) : Except ChunkError (Option Message) × ChunkDecoder → Prop
  | (.error e, d') => Drains d [] (some e) d'
  | (.ok none, d') => Drains d [] none d'
  | (.ok (some m), d') => d'.buf.length < d.buf.length ∧ ∀ {messages outcome last},
      Drains d' messages outcome last → Drains d (m :: messages) outcome last

theorem nextMessage_gives (d : ChunkDecoder) : Gives d d.nextMessage := by
  induction size : d.buf.length using Nat.strong_induction_on generalizing d with
  | _ size ih =>
    rw [nextMessage_eq]
    cases whole : d.parse with
    | error e => exact .failed whole
    | ok found =>
      cases found with
      | none => exact .dry whole
      | some c =>
        have shorter : (d.commit c).2.buf.length < d.buf.length := by
          rw [commit_buf]
          exact parse_length whole
        have taken {messages outcome last} (later : Drains (d.commit c).2 messages outcome last) :=
          Drains.chunk whole later
        have complete := commit_result c d
        dsimp only
        rcases result : d.commit c with ⟨_ | _ | m, next⟩ <;>
          simp only [result, ChunkResult.messages, List.nil_append, List.cons_append] at taken shorter ⊢
        · exact absurd (congrArg Prod.fst result) complete
        · have given := ih next.buf.length (by omega) next rfl
          revert given
          rcases next.nextMessage with ⟨_ | _ | m, last⟩
          · exact taken
          · exact taken
          · rintro ⟨fewer, later⟩
            exact ⟨by omega, fun drained => taken (later drained)⟩
        · exact ⟨shorter, taken⟩

/-- A call that gives no message leaves no trace: whatever is pushed next, the call after it is the
same as if it had not been made. -/
theorem nextMessage_traceless {d d' : ChunkDecoder} {result : Except ChunkError (Option Message)}
    (called : d.nextMessage = (result, d')) (nothing : ∀ m, result ≠ .ok (some m)) (x : Bytes) :
    (d'.push x).nextMessage = (d.push x).nextMessage := by
  induction size : d.buf.length using Nat.strong_induction_on generalizing d with
  | _ size ih =>
    rw [nextMessage_eq] at called
    cases whole : d.parse with
    | error e =>
      rw [whole] at called
      rw [← (Prod.mk.inj called).2]
    | ok found =>
      cases found with
      | none =>
        rw [whole] at called
        rw [← (Prod.mk.inj called).2]
      | some c =>
        rw [whole] at called
        have shorter := parse_length whole
        have buf := commit_buf c d
        have more := parse_push (by rw [whole]; intro none; injections) x
        rw [whole] at more
        have taken := commit_push c x d
        rw [nextMessage_eq (d.push x)]
        simp only [more, Except.map, Option.map, taken]
        dsimp only at called
        rcases committed : d.commit c with ⟨_ | _ | m, next⟩
        · exact absurd (congrArg Prod.fst committed) (commit_result c d)
        · rw [committed] at called buf
          dsimp only at called buf
          exact ih next.buf.length (by rw [buf]; omega) called rfl
        · rw [committed] at called
          exact absurd (Prod.mk.inj called).1.symm (nothing m)

private theorem pullLoop_drains {fuel : ℕ} (d : ChunkDecoder) (enough : d.buf.length < fuel) :
    Drains d (pullLoop fuel d).messages (pullLoop fuel d).outcome (pullLoop fuel d).decoder := by
  induction fuel generalizing d with
  | zero => omega
  | succ fuel ih =>
    have given := d.nextMessage_gives
    simp only [pullLoop]
    revert given
    rcases d.nextMessage with ⟨_ | _ | m, next⟩
    · exact id
    · exact id
    · rintro ⟨shorter, later⟩
      exact later (ih next (by omega))

theorem pull_drains (d : ChunkDecoder) : Drains d d.pull.messages d.pull.outcome d.pull.decoder :=
  pullLoop_drains d (by omega)

/-- Pulling is determined by what is drained. -/
theorem pull_eq {d d' : ChunkDecoder} {messages : List Message} {outcome : Option ChunkError}
    (drained : Drains d messages outcome d') : d.pull = ⟨messages, outcome, d'⟩ := by
  obtain ⟨same, sameOutcome, sameDecoder⟩ := d.pull_drains.unique drained
  rw [← same, ← sameOutcome, ← sameDecoder]

/-- Feeding a decoder piece by piece is feeding it all at once. -/
theorem feed_drains (pieces : List Bytes) (d : ChunkDecoder) :
    Drains (d.push pieces.flatten) (d.feed pieces).messages (d.feed pieces).outcome
      (d.feed pieces).decoder := by
  induction pieces generalizing d with
  | nil =>
    have same : d.push [] = d := by simp only [ChunkDecoder.push, List.append_nil]
    rw [List.flatten_nil, same]
    exact d.pull_drains
  | cons piece pieces ih =>
    rw [List.flatten_cons, push_append]
    exact (d.push piece).pull_drains.push (ih _)

end ChunkDecoder

end StreamDelay.Rtmp
