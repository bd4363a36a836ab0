import StreamDelay.Proofs.Rbsp
import StreamDelay.Soundness.Emulation

/-! # Slices as they are written

A decoder finds in a slice that was moved the header that the guard found in the one that came, but for its order count.
-/

namespace StreamDelay.Flv.Hevc

open Foundations Bits

variable {rbsp rest nal : Bytes} {start width lsb v n : ℕ} {shift : ℕ} {sets : ParameterSets} {t b0 b1 : UInt8}
  {s : Slice}

/-! ## What is read of a header -/

private theorem bitsLoop_lt (n v : ℕ) : Yields (bitsLoop n v) fun r => r < (v + 1) * 2 ^ n := by
  induction n generalizing v with
  | zero => exact Yields.pure (by omega)
  | succ n ih =>
    refine (Yields.any _).bind fun b _ => (ih _).mono fun r below => Nat.lt_of_lt_of_le below ?_
    rw [Nat.pow_succ, Nat.mul_comm (2 ^ n) 2, ← Nat.mul_assoc]
    refine Nat.mul_le_mul_right _ ?_
    have := b.toNat_le
    omega

private theorem bits_lt (n : ℕ) : Yields (bits n) fun v => v < 2 ^ n := by
  refine (bitsLoop_lt n 0).bind fun v below => ?_
  split
  · exact Yields.pure (by omega)
  · exact Yields.failure

/-- An order count is as wide as the sequence parameter set of its slice has it; and every picture that is not an IDR
has one. -/
def Slice.Fits (s : Slice) (sets : ParameterSets) (t : UInt8) : Prop :=
  (s.first = true → s.lsb = none → isIdr t = true) ∧
    ∃ version rbsp sps, sets.sps s.spsId = some (version, rbsp, sps) ∧
      ∀ start width lsb, s.lsb = some (start, width, lsb) → width = sps.log2MaxPocLsb ∧ lsb < 2 ^ width

private theorem sliceReader_fits (sets : ParameterSets) (t : UInt8) :
    Yields (sets.sliceReader t) fun s => s.Fits sets t := by
  refine (Yields.any _).bind fun first _ => (Yields.any _).bind fun _ _ => (Yields.any _).bind fun id _ => ?_
  split
  · exact Yields.failure
  · next pps _ =>
    split
    · exact Yields.failure
    · next version rbsp sps found =>
      split
      · exact Yields.failure
      · refine (Yields.any _).bind fun dependent _ => ?_
        cases dependent with
        | true => exact Yields.pure ⟨nofun, version, rbsp, sps, found, nofun⟩
        | false =>
          refine (Yields.any _).bind fun _ _ => ?_
          split
          · next idr => exact Yields.pure ⟨fun _ _ => idr, version, rbsp, sps, found, nofun⟩
          · refine (Yields.any _).bind fun start _ => (bits_lt _).bind fun lsb below => ?_
            refine (Yields.any _).bind fun rps _ => ?_
            refine Yields.pure ⟨nofun, version, rbsp, sps, found, ?_⟩
            rintro start' width lsb' ⟨⟩
            exact ⟨rfl, below⟩

theorem slice_fits (read : sets.slice rbsp t = some s) : s.Fits sets t := by
  obtain ⟨⟨s', r⟩, found, rfl⟩ := Option.map_eq_some_iff.mp read
  exact sliceReader_fits sets t _ _ _ found

/-! ## What a decoder reads -/

/-- The header is found in the whole slice as in its front. -/
theorem slice_whole (read : sets.slice (unescape (nal.take n)) t = some s) : sets.slice (unescape nal) t = some s := by
  obtain ⟨⟨s', r⟩, found, rfl⟩ := Option.map_eq_some_iff.mp read
  obtain ⟨⟨first, _⟩, here, -⟩ := Option.bind_eq_some_iff.mp found
  obtain ⟨_, bit, -⟩ := Option.map_eq_some_iff.mp here
  have inside : 16 < (unescape (nal.take n)).length * 8 := bitAt_isSome.mp (Option.isSome_of_eq_some bit)
  have early := unescape_front (nal.take n) (nal.drop n)
  rw [List.take_append_drop] at early
  obtain ⟨pos', -, -, -, again⟩ := (Local.sliceReader sets t).of_front early (by omega) found
  exact Option.map_eq_some_iff.mpr ⟨_, again, rfl⟩

/-- With its order count moved. -/
def Slice.moved (shift : ℕ) (s : Slice) : Slice :=
  { s with lsb := s.lsb.map fun (start, width, lsb) => (start, width, (lsb + shift) % 2 ^ width) }

@[simp] theorem Slice.moved_first (shift : ℕ) (s : Slice) : (s.moved shift).first = s.first := rfl

@[simp] theorem Slice.moved_spsId (shift : ℕ) (s : Slice) : (s.moved shift).spsId = s.spsId := rfl

@[simp] theorem Slice.moved_rps (shift : ℕ) (s : Slice) : (s.moved shift).rps = s.rps := rfl

private theorem Slice.moved_zero (fits : s.Fits sets t) : s.moved 0 = s := by
  obtain ⟨-, _, _, sps, -, small⟩ := fits
  unfold Slice.moved
  cases count : s.lsb with
  | none => rw [Option.map_none, ← count]
  | some field =>
    obtain ⟨start, width, lsb⟩ := field
    obtain ⟨-, below⟩ := small start width lsb count
    rw [Option.map_some]
    dsimp only
    rw [Nat.add_zero, Nat.mod_eq_of_lt below, ← count]

/-- What was escaped is at the front of what is unescaped from it. -/
theorem unescape_escape_front (raw : Bytes) : raw <+: unescape (escape raw) := by
  unfold escape unescape
  dsimp only
  split
  · rw [unescapeLoop_escapeLoop]
    exact List.prefix_append ..
  · have whole := unescapeLoop_escapeLoop 0 raw []
    rw [List.append_nil] at whole
    rw [whole]
    exact List.prefix_append ..

private theorem slice_withLsb (read : sets.slice (unescape (nal.take n)) t = some s)
    (count : s.lsb = some (start, width, lsb)) (fits : v < 2 ^ width) (small : v < 2 ^ 32) :
    sets.slice (unescape (escape (putBits (unescape nal) start width v))) t = some (s.withLsb v) := by
  obtain ⟨⟨s', r⟩, found, rfl⟩ := Option.map_eq_some_iff.mp read
  obtain ⟨pos', rfl, forward, inside, counts, again⟩ := Renumbers.sliceReader sets t _ _ s' r found
  obtain ⟨after, i, past, before, set⟩ := counts start width lsb count
  have head := bitAt_isSome.mp (Option.isSome_of_eq_some set)
  have within := inside (by omega)
  have early := unescape_front (nal.take n) (nal.drop n)
  rw [List.take_append_drop] at early
  have longer := early.length_le
  have written := unescape_escape_front (putBits (unescape nal) start width v)
  have longer' := written.length_le
  rw [length_putBits] at longer'
  have bitsOf (i : ℕ) (less : i < (unescape (nal.take n)).length * 8) :
      bitAt (unescape (escape (putBits (unescape nal) start width v))) i =
        bitAt (putBits (unescape nal) start width v) i :=
    bitAt_front written (by rw [length_putBits]; omega)
  refine Option.map_eq_some_iff.mpr ⟨_, again _ v (fun i after before other => ?_) (by omega) ?_, rfl⟩
  · rw [bitsOf i (by omega), bitAt_putBits, if_neg, bitAt_front early (by omega)]
    exact fun inField => other ⟨start, width, lsb, count, inField⟩
  · rintro start' width' lsb' same
    obtain ⟨rfl, rfl, rfl⟩ : start = start' ∧ width = width' ∧ lsb = lsb' := by
      rw [count] at same
      simpa using same
    refine ⟨fun j less => ?_, fits, small⟩
    have there := bitAt_isSome.mpr (show start + j < (unescape nal).length * 8 by omega)
    rw [bitsOf _ (by omega), bitAt_putBits, if_pos (by omega), Nat.add_sub_cancel_left]
    cases bit : bitAt (unescape nal) (start + j) with
    | none =>
      rw [bit] at there
      contradiction
    | some _ => rfl

/-- A decoder finds the count moved. -/
theorem slice_moved (read : sets.slice (unescape (nal.take n)) t = some s)
    (small : ∀ start width lsb, s.lsb = some (start, width, lsb) → width ≤ 32) :
    sets.slice (unescape ((PocGuard.moved shift s nal).getD nal)) t = some (s.moved shift) := by
  unfold PocGuard.moved
  split
  · next start width lsb count =>
    split
    · have below : (lsb + shift) % 2 ^ width < 2 ^ width := Nat.mod_lt _ (Nat.two_pow_pos width)
      have least : (2 : ℕ) ^ width ≤ 2 ^ 32 := Nat.pow_le_pow_right (by decide) (small start width lsb count)
      have found := slice_withLsb read count below (Nat.lt_of_lt_of_le below least)
      rw [Option.getD_some, found]
      unfold Slice.withLsb Slice.moved
      rw [count]
      rfl
    · next zero =>
      obtain rfl : shift = 0 := by omega
      rw [Slice.moved_zero (slice_fits read)]
      exact slice_whole read
  · next none_ =>
    have same : s.moved shift = s := by
      unfold Slice.moved
      rw [none_, Option.map_none, ← none_]
    rw [same]
    exact slice_whole read

/-! ## The header bytes of a NAL unit -/

private theorem unescape_header (b0 b1 : UInt8) (rest : Bytes) :
    ∃ more, unescape (b0 :: b1 :: rest) = b0 :: b1 :: more := by
  unfold unescape unescapeLoop
  rw [if_neg (by omega), unescapeLoop, if_neg (by split <;> omega)]
  exact ⟨_, rfl⟩

private theorem escape_header (b0 b1 : UInt8) (rest : Bytes) :
    ∃ more, escape (b0 :: b1 :: rest) = b0 :: b1 :: more := by
  have loop : ∃ more, escapeLoop 0 (b0 :: b1 :: rest) = b0 :: b1 :: more := by
    rw [escapeLoop, if_neg (by omega), escapeLoop, if_neg (by split <;> omega)]
    exact ⟨_, rfl⟩
  obtain ⟨more, same⟩ := loop
  unfold escape
  dsimp only
  rw [same]
  split
  · exact ⟨more ++ [3], rfl⟩
  · exact ⟨more, rfl⟩

/-- The order count comes after the header. -/
theorem slice_start (read : sets.slice rbsp t = some s) (count : s.lsb = some (start, width, lsb)) : 16 ≤ start := by
  obtain ⟨⟨s', r⟩, found, rfl⟩ := Option.map_eq_some_iff.mp read
  obtain ⟨pos', rfl, -, -, counts, -⟩ := Renumbers.sliceReader sets t _ _ s' r found
  exact (counts start width lsb count).1

private theorem putBits_header (b0 b1 : UInt8) (rest : Bytes) (after : 16 ≤ start) :
    ∃ more, putBits (b0 :: b1 :: rest) start width v = b0 :: b1 :: more := by
  have first : (putBits (b0 :: b1 :: rest) start width v)[0]? = some b0 := getElem?_putBits _ _ _ _ (.inl (by omega))
  have second : (putBits (b0 :: b1 :: rest) start width v)[1]? = some b1 := getElem?_putBits _ _ _ _ (.inl (by omega))
  generalize putBits (b0 :: b1 :: rest) start width v = written at first second
  rcases written with _ | ⟨c0, _ | ⟨c1, more⟩⟩
  · contradiction
  · contradiction
  · obtain rfl := Option.some.inj first
    obtain rfl := Option.some.inj second
    exact ⟨more, rfl⟩

theorem moved_header (shift : ℕ) (read : sets.slice (unescape ((b0 :: b1 :: rest).take n)) t = some s) :
    ∃ more, (PocGuard.moved shift s (b0 :: b1 :: rest)).getD (b0 :: b1 :: rest) = b0 :: b1 :: more := by
  unfold PocGuard.moved
  split
  · next start width lsb count =>
    split
    · obtain ⟨raw, unescaped⟩ := unescape_header b0 b1 rest
      have after := slice_start read count
      obtain ⟨raw', written⟩ := @putBits_header start width ((lsb + shift) % 2 ^ width) b0 b1 raw after
      obtain ⟨more, escaped⟩ := escape_header b0 b1 raw'
      refine ⟨more, ?_⟩
      rw [unescaped, written, escaped, Option.getD_some]
    · exact ⟨rest, rfl⟩
  · exact ⟨rest, rfl⟩

end StreamDelay.Flv.Hevc
