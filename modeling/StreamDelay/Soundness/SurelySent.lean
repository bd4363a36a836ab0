import Mathlib.Data.List.Induction
import Mathlib.Tactic.Common
import StreamDelay.Relay.WriteLog

/-! # The message named as sent has left

Of what a connection wrote, at most the last so many bytes may be waiting in this computer. The message the log
names ended before those, whatever else was written between; and it is the newest the log can tell.
-/

namespace StreamDelay.Relay

variable {writes before after : List Write} {batch : List Piece} {seq unsent : ℕ}

/-- The numbered batches, oldest first, with the logged bytes after each; `start` bytes were logged before. -/
def ends : ℕ → List Write → List (ℕ × ℕ)
  | _, [] => []
  | start, .protocol _ :: rest => ends start rest
  | start, .media batch :: rest =>
    ((batchLast batch).map fun seq => (seq, start + pieceBytes batch)).toList ++
      ends (start + pieceBytes batch) rest

/-- The bytes logged. -/
def loggedBytes (writes : List Write) : ℕ :=
  (writes.map fun w => match w with | .media batch => pieceBytes batch | .protocol _ => 0).sum

private theorem loggedBytes_append (first second : List Write) :
    loggedBytes (first ++ second) = loggedBytes first + loggedBytes second := by
  simp [loggedBytes]

private theorem streamBytes_append (first second : List Write) :
    streamBytes (first ++ second) = streamBytes first + streamBytes second := by
  simp [streamBytes]

private theorem loggedBytes_le (writes : List Write) : loggedBytes writes ≤ streamBytes writes := by
  induction writes with
  | nil => exact Nat.le_refl 0
  | cons w rest ih =>
    have split := loggedBytes_append [w] rest
    have split' := streamBytes_append [w] rest
    have one : loggedBytes [w] ≤ streamBytes [w] := by
      cases w with
      | media batch => exact Nat.le_refl _
      | protocol bytes => exact Nat.zero_le _
    simp only [List.singleton_append] at split split'
    omega

private theorem ends_append (start : ℕ) (first second : List Write) :
    ends start (first ++ second) = ends start first ++ ends (start + loggedBytes first) second := by
  induction first generalizing start with
  | nil => simp [ends, loggedBytes]
  | cons w rest ih =>
    have split := loggedBytes_append [w] rest
    rw [List.singleton_append] at split
    cases w with
    | media batch =>
      rw [List.cons_append, ends, ends, ih, List.append_assoc, split, ← Nat.add_assoc]
      rfl
    | protocol bytes =>
      rw [List.cons_append, ends, ends, ih, split]
      have none : loggedBytes [.protocol bytes] = 0 := rfl
      rw [none, Nat.zero_add]

/-- Each batch ends between the start and the end, and later than those before it. -/
theorem ends_bounds (start : ℕ) (writes : List Write) :
    (∀ b ∈ ends start writes, start ≤ b.2 ∧ b.2 ≤ start + loggedBytes writes) ∧
      (ends start writes).Pairwise fun a b => a.2 ≤ b.2 := by
  induction writes generalizing start with
  | nil => exact ⟨nofun, .nil⟩
  | cons w rest ih =>
    have split := loggedBytes_append [w] rest
    rw [List.singleton_append] at split
    cases w with
    | protocol bytes =>
      obtain ⟨bounds, sorted⟩ := ih start
      refine ⟨fun b member => ?_, sorted⟩
      have bound := bounds b member
      omega
    | media batch =>
      obtain ⟨bounds, sorted⟩ := ih (start + pieceBytes batch)
      have own : loggedBytes [.media batch] = pieceBytes batch := rfl
      have first : ∀ b ∈ ((batchLast batch).map fun seq => (seq, start + pieceBytes batch)).toList,
          b.2 = start + pieceBytes batch := by
        intro b member
        obtain ⟨seq, -, rfl⟩ := Option.map_eq_some_iff.mp (Option.mem_toList.mp member)
        rfl
      constructor
      · intro b member
        rcases List.mem_append.mp member with here | later
        · have at_ := first b here
          omega
        · have bound := bounds b later
          omega
      · refine List.pairwise_append.mpr ⟨?_, sorted, fun a here b later => ?_⟩
        · cases batchLast batch with
          | none => exact .nil
          | some seq => exact List.pairwise_singleton _ _
        · rw [first a here]
          exact (bounds b later).1

/-- Each of the numbered batches is one that was written. -/
theorem ends_mem {start : ℕ} {b : ℕ × ℕ} (member : b ∈ ends start writes) :
    ∃ before batch after, writes = before ++ .media batch :: after ∧ batchLast batch = some b.1 ∧
      b.2 = start + loggedBytes before + pieceBytes batch := by
  induction writes generalizing start with
  | nil => contradiction
  | cons w rest ih =>
    cases w with
    | protocol bytes =>
      obtain ⟨before, batch, after, rfl, last, at_⟩ := ih member
      have split := loggedBytes_append [.protocol bytes] before
      have none : loggedBytes [.protocol bytes] = 0 := rfl
      exact ⟨.protocol bytes :: before, batch, after, rfl, last, by
        rw [List.singleton_append] at split
        omega⟩
    | media first =>
      rcases List.mem_append.mp member with here | later
      · obtain ⟨seq, last, rfl⟩ := Option.map_eq_some_iff.mp (Option.mem_toList.mp here)
        exact ⟨[], first, rest, rfl, last, rfl⟩
      · obtain ⟨before, batch, after, rfl, last, at_⟩ := ih later
        have split := loggedBytes_append [.media first] before
        have own : loggedBytes [.media first] = pieceBytes first := rfl
        exact ⟨.media first :: before, batch, after, rfl, last, by
          rw [List.singleton_append] at split
          omega⟩

/-! ## What the log holds -/

/-- Of batches in order, those that ended too far back are the first ones. -/
theorem dropWhile_eq_filter {l : List (ℕ × ℕ)} (sorted : l.Pairwise fun a b => a.2 ≤ b.2) (total kept : ℕ) :
    (l.dropWhile fun b => kept < total - b.2) = l.filter fun b => total - b.2 ≤ kept := by
  induction l with
  | nil => rfl
  | cons b rest ih =>
    obtain ⟨first, sorted⟩ := List.pairwise_cons.mp sorted
    by_cases old : kept < total - b.2
    · rw [List.dropWhile_cons_of_pos (by simpa using old), List.filter_cons_of_neg (by simp; omega), ih sorted]
    · rw [List.dropWhile_cons_of_neg (by simpa using old)]
      refine (List.filter_eq_self.mpr fun a member => ?_).symm
      rcases List.mem_cons.mp member with rfl | later
      · simpa using old
      · have after := first a later
        simp only [decide_eq_true_eq]
        omega

/-- The log holds the numbered batches that ended within its reach. -/
theorem logOf_eq (writes : List Write) :
    logOf writes = ⟨loggedBytes writes,
      (ends 0 writes).filter fun b => loggedBytes writes - b.2 ≤ WRITTEN_KEPT⟩ := by
  induction writes using List.reverseRecOn with
  | nil => rfl
  | append_singleton writes w ih =>
    have step : logOf (writes ++ [w]) = w.note (logOf writes) := by
      rw [logOf, List.foldl_append]
      rfl
    have total := loggedBytes_append writes [w]
    rw [step, ih, ends_append]
    cases w with
    | protocol bytes =>
      have none : loggedBytes [.protocol bytes] = 0 := rfl
      rw [total, none, Nat.add_zero, ends, ends, List.append_nil]
      rfl
    | media batch =>
      have own : loggedBytes [.media batch] = pieceBytes batch := rfl
      rw [own] at total
      have sorted := (ends_bounds 0 (writes ++ [.media batch])).2
      rw [ends_append, Nat.zero_add, ends, ends, List.append_nil] at sorted
      rw [total, Nat.zero_add, ends, ends, List.append_nil]
      simp only [Write.note, WriteLog.written, WriteLog.forget, WriteLog.mk.injEq, true_and]
      have within : ((ends 0 writes).filter (fun b => loggedBytes writes - b.2 ≤ WRITTEN_KEPT) ++
          ((batchLast batch).map fun seq => (seq, loggedBytes writes + pieceBytes batch)).toList).Pairwise
            fun a b => a.2 ≤ b.2 :=
        sorted.sublist ((List.filter_sublist ..).append (.refl _))
      rw [dropWhile_eq_filter within, List.filter_append, List.filter_append, List.filter_filter]
      refine congrArg (· ++ _) (List.filter_congr fun b _ => ?_)
      simp only [Bool.and_eq_left_iff_imp, decide_eq_true_eq]
      omega

private theorem surelySent_eq (writes : List Write) (unsent : ℕ) :
    (logOf writes).surelySent unsent =
      if loggedBytes writes < unsent then none
      else ((ends 0 writes).reverse.find? fun b =>
        decide (loggedBytes writes - b.2 ≤ WRITTEN_KEPT) && decide (b.2 ≤ loggedBytes writes - unsent)).map
          Prod.fst := by
  rw [logOf_eq, WriteLog.surelySent]
  dsimp only
  rw [← List.filter_reverse, List.find?_filter]
  simp only [Bool.decide_and, Bool.decide_eq_true]

/-! ## The message named -/

/-- The last message of a batch with a number is one of its pieces. -/
theorem batchLast_piece (last : batchLast batch = some seq) :
    ∃ first bytes rest, batch = first ++ ⟨some seq, bytes⟩ :: rest := by
  have member : seq ∈ batch.filterMap Piece.seq := List.mem_of_getLast? last
  obtain ⟨piece, there, named⟩ := List.mem_filterMap.mp member
  obtain ⟨first, rest, rfl⟩ := List.append_of_mem there
  exact ⟨first, piece.bytes, rest, by rw [← named]⟩

private theorem pieceBytes_append (first rest : List Piece) :
    pieceBytes (first ++ rest) = pieceBytes first + pieceBytes rest := by
  simp [pieceBytes]

/-- The message named ended before the bytes that may not have left. -/
theorem named_sent (named : (logOf writes).surelySent unsent = some seq) :
    ∃ before first bytes rest after, writes = before ++ .media (first ++ ⟨some seq, bytes⟩ :: rest) :: after ∧
      streamBytes before + pieceBytes (first ++ [⟨some seq, bytes⟩]) + unsent ≤ streamBytes writes := by
  rw [surelySent_eq] at named
  split at named
  · contradiction
  · next enough =>
    obtain ⟨b, found, rfl⟩ := Option.map_eq_some_iff.mp named
    have member := List.mem_reverse.mp (List.mem_of_find?_eq_some found)
    have sent := List.find?_some found
    simp only [Bool.and_eq_true, decide_eq_true_eq] at sent
    obtain ⟨before, batch, after, rfl, last, at_⟩ := ends_mem member
    obtain ⟨first, bytes, rest, rfl⟩ := batchLast_piece last
    refine ⟨before, first, bytes, rest, after, rfl, ?_⟩
    have logged := loggedBytes_append before (.media (first ++ ⟨some b.1, bytes⟩ :: rest) :: after)
    have logged' := loggedBytes_append [.media (first ++ ⟨some b.1, bytes⟩ :: rest)] after
    have stream := streamBytes_append before (.media (first ++ ⟨some b.1, bytes⟩ :: rest) :: after)
    have stream' := streamBytes_append [.media (first ++ ⟨some b.1, bytes⟩ :: rest)] after
    have later := loggedBytes_le after
    have own : loggedBytes [.media (first ++ ⟨some b.1, bytes⟩ :: rest)] =
      pieceBytes (first ++ ⟨some b.1, bytes⟩ :: rest) := rfl
    have own' : streamBytes [.media (first ++ ⟨some b.1, bytes⟩ :: rest)] =
      pieceBytes (first ++ ⟨some b.1, bytes⟩ :: rest) := rfl
    have piece := pieceBytes_append first [⟨some b.1, bytes⟩]
    have piece' := pieceBytes_append (first ++ [⟨some b.1, bytes⟩]) rest
    rw [List.append_assoc, List.singleton_append] at piece'
    rw [List.singleton_append] at logged' stream'
    omega

/-- Where only media was written, the newest numbered batch that ended in time is named, if the log reaches back
to it. -/
theorem newest_named (only : ∀ w ∈ writes, ∃ batch, w = .media batch)
    (split : writes = before ++ .media batch :: after) (last : batchLast batch = some seq)
    (sent : streamBytes before + pieceBytes batch + unsent ≤ streamBytes writes)
    (reaches : streamBytes writes ≤ streamBytes before + pieceBytes batch + WRITTEN_KEPT)
    (newest : ∀ mid batch' rest, after = mid ++ .media batch' :: rest → batchLast batch' ≠ none →
      streamBytes writes < streamBytes (before ++ .media batch :: mid) + pieceBytes batch' + unsent) :
    (logOf writes).surelySent unsent = some seq := by
  have all_logged {ws : List Write} (media : ∀ w ∈ ws, ∃ batch, w = .media batch) :
      loggedBytes ws = streamBytes ws := by
    induction ws with
    | nil => rfl
    | cons w rest ih =>
      obtain ⟨batch, rfl⟩ := media w (List.mem_cons_self ..)
      have later := ih fun w member => media w (List.mem_cons_of_mem _ member)
      simp only [loggedBytes, streamBytes, List.map_cons, List.sum_cons] at later ⊢
      rw [later]
      rfl
  have total := all_logged only
  have early : loggedBytes before = streamBytes before :=
    all_logged fun w member => only w (by rw [split]; exact List.mem_append_left _ member)
  have here : ends 0 writes = ends 0 before ++ (seq, streamBytes before + pieceBytes batch) ::
      ends (streamBytes before + pieceBytes batch) after := by
    rw [split, ends_append, Nat.zero_add, early, ends, last]
    rfl
  rw [surelySent_eq, total, if_neg (by omega), here, List.reverse_append, List.reverse_cons, List.append_assoc,
    List.find?_append]
  have later : (ends (streamBytes before + pieceBytes batch) after).reverse.find? (fun b =>
      decide (streamBytes writes - b.2 ≤ WRITTEN_KEPT) && decide (b.2 ≤ streamBytes writes - unsent)) = none := by
    refine List.find?_eq_none.mpr fun b member => ?_
    obtain ⟨mid, batch', rest, whole, numbered, at_⟩ := ends_mem (List.mem_reverse.mp member)
    have past := newest mid batch' rest whole (by rw [numbered]; exact Option.some_ne_none _)
    have between : loggedBytes mid = streamBytes mid :=
      all_logged fun w member => only w (by
        rw [split, whole]
        exact List.mem_append_right _ (List.mem_cons_of_mem _ (List.mem_append_left _ member)))
    have stream := streamBytes_append before (.media batch :: mid)
    have stream' := streamBytes_append [.media batch] mid
    have own : streamBytes [.media batch] = pieceBytes batch := rfl
    rw [List.singleton_append] at stream'
    simp only [Bool.and_eq_true, decide_eq_true_eq, not_and]
    omega
  rw [later, Option.none_or, List.cons_append, List.nil_append, List.find?_cons_of_pos]
  · rfl
  · simp only [Bool.and_eq_true, decide_eq_true_eq]
    omega

/-- Whatever was written on a connection, a last write of `cut` bytes broken off included, and whatever number of
bytes at its end may not have left: the message the log names ended before those. And if only media was written,
the log names the newest numbered batch's message that ended before them, if that is within its reach. -/
theorem surely_sent_sound (writes : List Write) (cut unsent : ℕ) :
    (∀ seq, (logOf writes).surelySent unsent = some seq →
      ∃ before first bytes rest after, writes = before ++ .media (first ++ ⟨some seq, bytes⟩ :: rest) :: after ∧
        streamBytes before + pieceBytes (first ++ [⟨some seq, bytes⟩]) + unsent ≤ streamBytes writes + cut) ∧
      ((∀ w ∈ writes, ∃ batch, w = .media batch) → ∀ before batch after seq,
        writes = before ++ .media batch :: after → batchLast batch = some seq →
        streamBytes before + pieceBytes batch + unsent ≤ streamBytes writes →
        streamBytes writes ≤ streamBytes before + pieceBytes batch + WRITTEN_KEPT →
        (∀ mid batch' rest, after = mid ++ .media batch' :: rest → batchLast batch' ≠ none →
          streamBytes writes < streamBytes (before ++ .media batch :: mid) + pieceBytes batch' + unsent) →
        (logOf writes).surelySent unsent = some seq) := by
  refine ⟨fun seq named => ?_, fun only before batch after seq split last sent reaches newest => ?_⟩
  · obtain ⟨before, first, bytes, rest, after, whole, ended⟩ := named_sent named
    exact ⟨before, first, bytes, rest, after, whole, by omega⟩
  · exact newest_named only split last sent reaches newest

/-- Message 1 ends at byte 100, and 2 at 210 of the stream, after an answer of ten bytes that is not logged. -/
example : ([0, 99, 100, 101, 201].map fun unsent =>
    (logOf [.media [⟨some 1, 100⟩], .protocol 10, .media [⟨none, 50⟩], .media [⟨some 2, 50⟩]]).surelySent unsent) =
      [some 2, some 1, some 1, none, none] := by decide

end StreamDelay.Relay
