import StreamDelay.Proofs.Headers
import StreamDelay.Proofs.Slices

/-! # NAL units in a message

Units with their lengths before them are read back from what they are written to.
-/

namespace StreamDelay.Flv.Hevc

open Foundations

variable {rest nal raw payload out : Bytes} {nals : List Bytes} {n shift offset : ℕ} {s : Slice} {p : Packet}
  {g : PocGuard}

theorem length_framed (nal : Bytes) : (framed nal).length = 4 + nal.length := by
  rw [framed, List.length_append]
  rfl

private theorem be32_framed (nal more : Bytes) (short : nal.length < 2 ^ 32) :
    be32 (framed nal ++ more) 0 = nal.length := by
  show ((UInt8.ofNat (nal.length / 16777216)).toNat * 256 + (UInt8.ofNat (nal.length / 65536)).toNat) * 65536 +
    (UInt8.ofNat (nal.length / 256)).toNat * 256 + (UInt8.ofNat nal.length).toNat = nal.length
  simp only [UInt8.toNat_ofNat']
  omega

/-- The length read at the start of a list of bytes, and what it is the length of. -/
theorem framed_take {data : Bytes} (four : 4 ≤ data.length) (whole : 4 + be32 data 0 ≤ data.length) :
    framed ((data.drop 4).take (be32 data 0)) = data.take (4 + be32 data 0) := by
  rcases data with _ | ⟨a, _ | ⟨b, _ | ⟨c, _ | ⟨d, rest⟩⟩⟩⟩
  iterate 4 exact absurd four (by simp)
  generalize length : be32 (a :: b :: c :: d :: rest) 0 = n at whole
  change (a.toNat * 256 + b.toNat) * 65536 + c.toNat * 256 + d.toNat = n at length
  simp only [List.length_cons] at whole
  have all : (rest.take n).length = n := List.length_take_of_le (by omega)
  have := a.toNat_lt
  have := b.toNat_lt
  have := c.toNat_lt
  have := d.toNat_lt
  have high : UInt8.ofNat (n / 16777216) = a := UInt8.toNat_inj.mp (by rw [UInt8.toNat_ofNat']; omega)
  have second : UInt8.ofNat (n / 65536) = b := UInt8.toNat_inj.mp (by rw [UInt8.toNat_ofNat']; omega)
  have third : UInt8.ofNat (n / 256) = c := UInt8.toNat_inj.mp (by rw [UInt8.toNat_ofNat']; omega)
  have low : UInt8.ofNat n = d := UInt8.toNat_inj.mp (by rw [UInt8.toNat_ofNat']; omega)
  rw [List.drop_succ_cons, List.drop_succ_cons, List.drop_succ_cons, List.drop_succ_cons, List.drop_zero, framed, all,
    high, second, third, low, Nat.add_comm 4 n]
  rfl

private theorem be32_lt (data : Bytes) : be32 data 0 < 2 ^ 32 := by
  unfold be32
  have bound (i : ℕ) : (data.getD i 0).toNat < 256 := UInt8.toNat_lt _
  have := bound 0
  have := bound (0 + 1)
  have := bound (0 + 2)
  have := bound (0 + 3)
  omega

/-- Any fuel is enough that is as many as the bytes. -/
theorem splitUnits_fuel {data : Bytes} {fuel fuel' : ℕ} (enough : data.length ≤ fuel) (enough' : data.length ≤ fuel') :
    splitUnits fuel data = splitUnits fuel' data := by
  induction fuel generalizing data fuel' with
  | zero =>
    obtain rfl := List.length_eq_zero_iff.mp (Nat.le_zero.mp enough)
    cases fuel' <;> rfl
  | succ fuel ih =>
    cases fuel' with
    | zero =>
      obtain rfl := List.length_eq_zero_iff.mp (Nat.le_zero.mp enough')
      rfl
    | succ fuel' =>
      unfold splitUnits
      split
      · next whole =>
        have later : splitUnits fuel (data.drop (4 + be32 data 0)) = splitUnits fuel' (data.drop (4 + be32 data 0)) :=
          ih (by rw [List.length_drop]; omega) (by rw [List.length_drop]; omega)
        rw [later]
      · rfl

theorem units_of_whole {data : Bytes} (four : 4 ≤ data.length) (whole : 4 + be32 data 0 ≤ data.length) :
    units data = ((data.drop 4).take (be32 data 0) :: (units (data.drop (4 + be32 data 0))).1,
      (units (data.drop (4 + be32 data 0))).2) := by
  have some_ : data.length = data.length - 1 + 1 := by omega
  have later : splitUnits (data.length - 1) (data.drop (4 + be32 data 0)) = units (data.drop (4 + be32 data 0)) :=
    splitUnits_fuel (by rw [List.length_drop]; omega) le_rfl
  conv_lhs => rw [units, some_, splitUnits, if_pos ⟨four, whole⟩, later]

private theorem units_of_not_whole {data : Bytes} (cut : ¬(4 ≤ data.length ∧ 4 + be32 data 0 ≤ data.length)) :
    units data = ([], data) := by
  unfold units
  cases data.length with
  | zero => rfl
  | succ fuel =>
    unfold splitUnits
    exact if_neg cut

private theorem units_framed (nal data : Bytes) (short : nal.length < 2 ^ 32) :
    units (framed nal ++ data) = (nal :: (units data).1, (units data).2) := by
  have length := be32_framed nal data short
  have size : (framed nal ++ data).length = 4 + nal.length + data.length := by
    rw [List.length_append, length_framed]
  have behind : (framed nal ++ data).drop (4 + nal.length) = data := by
    rw [← length_framed, List.drop_left]
  rw [units_of_whole (by omega) (by omega), length, behind]
  refine Prod.ext (congrArg (· :: _) ?_) rfl
  exact List.take_left

private theorem units_flatMap {nals : List Bytes} (short : ∀ nal ∈ nals, nal.length < 2 ^ 32) (data : Bytes) :
    units (nals.flatMap framed ++ data) = (nals ++ (units data).1, (units data).2) := by
  induction nals with
  | nil => rfl
  | cons nal nals ih =>
    rw [List.flatMap_cons, List.append_assoc, units_framed _ _ (short nal (List.mem_cons_self ..)),
      ih fun nal member => short nal (List.mem_cons_of_mem _ member)]
    rfl

/-- The NAL units of a packet with their lengths, and bytes with no whole NAL unit. -/
theorem units_whole {data : Bytes} {nals : List Bytes} (split : units data = (nals, rest)) :
    data = nals.flatMap framed ++ rest ∧ units rest = ([], rest) ∧ ∀ nal ∈ nals, nal.length < 2 ^ 32 := by
  induction size : data.length using Nat.strong_induction_on generalizing data nals with
  | h n ih =>
    by_cases whole : 4 ≤ data.length ∧ 4 + be32 data 0 ≤ data.length
    · obtain ⟨four, all⟩ := whole
      rw [units_of_whole four all] at split
      obtain ⟨rfl, rfl⟩ := Prod.mk.inj split
      have less : (data.drop (4 + be32 data 0)).length < n := by
        rw [List.length_drop]
        omega
      obtain ⟨later, stop, short⟩ := @ih _ less _ (units (data.drop (4 + be32 data 0))).1 rfl rfl
      refine ⟨?_, stop, ?_⟩
      · rw [List.flatMap_cons, framed_take four all, List.append_assoc, ← later, List.take_append_drop]
      · intro nal member
        rcases List.mem_cons.mp member with rfl | member
        · exact Nat.lt_of_le_of_lt (List.length_take_le ..) (be32_lt data)
        · exact short nal member
    · have none_ := units_of_not_whole whole
      rw [none_] at split
      obtain ⟨rfl, rfl⟩ := Prod.mk.inj split
      exact ⟨rfl, none_, nofun⟩

private theorem length_of_mem (member : nal ∈ nals) : nal.length ≤ (nals.flatMap framed).length := by
  obtain ⟨before, behind, rfl⟩ := List.append_of_mem member
  rw [List.flatMap_append, List.flatMap_cons, List.length_append, List.length_append, length_framed]
  omega

/-! ## What is written for a NAL unit -/

private theorem length_unescapeLoop_le (zeros : ℕ) (nal : Bytes) : (unescapeLoop zeros nal).length ≤ nal.length := by
  induction nal generalizing zeros with
  | nil => exact le_rfl
  | cons b rest ih =>
    unfold unescapeLoop
    split
    · exact Nat.le_succ_of_le (ih 0)
    · exact Nat.succ_le_succ (ih _)

private theorem length_escapeLoop_le (zeros : ℕ) (raw : Bytes) : (escapeLoop zeros raw).length ≤ 2 * raw.length := by
  induction raw generalizing zeros with
  | nil => exact le_rfl
  | cons b rest ih =>
    unfold escapeLoop
    split
    · have := ih (if b = 0 then 1 else 0)
      rw [List.length_cons, List.length_cons, List.length_cons]
      omega
    · have := ih (if b = 0 then zeros + 1 else 0)
      rw [List.length_cons, List.length_cons]
      omega

private theorem length_escape_le (raw : Bytes) : (escape raw).length ≤ 2 * raw.length + 1 := by
  have := length_escapeLoop_le 0 raw
  unfold escape
  dsimp only
  split
  · rw [List.length_append, List.length_singleton]
    omega
  · omega

private theorem length_moved_le (shift : ℕ) (s : Slice) (nal : Bytes) :
    ((PocGuard.moved shift s nal).getD nal).length ≤ 2 * nal.length + 1 := by
  have shrunk := length_unescapeLoop_le 0 nal
  unfold PocGuard.moved
  split
  · next start width lsb _ =>
    split
    · have grown := length_escape_le (putBits (unescape nal) start width ((lsb + shift) % 2 ^ width))
      rw [length_putBits, unescape] at grown
      exact Nat.le_trans grown (by omega)
    · exact Nat.le_succ_of_le (Nat.le_mul_of_pos_left _ Nat.two_pos)
  · exact Nat.le_succ_of_le (Nat.le_mul_of_pos_left _ Nat.two_pos)

/-- For every NAL unit nothing is given or a slice moved. -/
theorem unit_emits (p : Packet) (nal : Bytes) :
    ∃ new, (p.unit nal).2 = [new] ∧ (new = none ∨ ∃ shift s, new = PocGuard.moved shift s nal) := by
  unfold Packet.unit
  split
  · dsimp only
    split
    · split <;> exact ⟨none, rfl, .inl rfl⟩
    · split
      · split
        · exact ⟨none, rfl, .inl rfl⟩
        · split <;> exact ⟨none, rfl, .inl rfl⟩
      · split
        · exact ⟨none, rfl, .inl rfl⟩
        · unfold Packet.slice
          split
          · exact ⟨none, rfl, .inl rfl⟩
          · exact ⟨_, rfl, .inr ⟨_, _, rfl⟩⟩
  · exact ⟨none, rfl, .inl rfl⟩

/-- What is written for the NAL units of a packet. -/
def Packet.written (p : Packet) (nals : List Bytes) : List Bytes :=
  (nals.zip (Machine.outputs Packet.unit p nals)).map fun (nal, new) => new.getD nal

@[simp] theorem written_nil (p : Packet) : p.written [] = [] := rfl

theorem written_cons {new : Option Bytes} (emitted : (p.unit nal).2 = [new]) :
    p.written (nal :: nals) = new.getD nal :: (p.unit nal).1.written nals := by
  unfold Packet.written
  rw [Machine.outputs_cons, emitted]
  rfl

theorem length_written (p : Packet) (nals : List Bytes) : (p.written nals).length = nals.length := by
  induction nals generalizing p with
  | nil => rfl
  | cons nal nals ih =>
    obtain ⟨new, emitted, -⟩ := unit_emits p nal
    rw [written_cons emitted, List.length_cons, List.length_cons, ih]

theorem written_short (p : Packet) (short : ∀ nal ∈ nals, nal.length < n) :
    ∀ nal' ∈ p.written nals, nal'.length < 2 * n := by
  induction nals generalizing p with
  | nil => exact nofun
  | cons nal nals ih =>
    obtain ⟨new, emitted, from_⟩ := unit_emits p nal
    have here := short nal (List.mem_cons_self ..)
    rw [written_cons emitted]
    intro nal' member
    rcases List.mem_cons.mp member with rfl | member
    · rcases from_ with rfl | ⟨shift, s, rfl⟩
      · rw [Option.getD_none]
        omega
      · have := length_moved_le shift s nal
        omega
    · exact ih _ (fun nal member => short nal (List.mem_cons_of_mem _ member)) nal' member

private theorem written_unchanged (p : Packet) (none_ : (Machine.outputs Packet.unit p nals).all (·.isNone) = true) :
    p.written nals = nals := by
  induction nals generalizing p with
  | nil => rfl
  | cons nal nals ih =>
    obtain ⟨new, emitted, -⟩ := unit_emits p nal
    rw [Machine.outputs_cons, emitted, List.singleton_append, List.all_cons, Bool.and_eq_true] at none_
    obtain rfl := Option.isNone_iff_eq_none.mp none_.1
    rw [written_cons emitted, ih _ none_.2, Option.getD_none]

/-! ## What is written for a message -/

/-- A changed message has the NAL units that are written, after the same bytes and before the same. -/
theorem coded_some (coded : (g.coded payload offset).2 = some out) :
    (units (payload.drop offset)).1 ≠ [] ∧
      out = payload.take offset ++ (g.packet.written (units (payload.drop offset)).1).flatMap framed ++
        (units (payload.drop offset)).2 := by
  unfold PocGuard.coded at coded
  split at coded
  · dsimp only at coded
    split at coded
    · contradiction
    · next some_ =>
      refine ⟨?_, ?_⟩
      · intro empty
        exact some_ (by rw [empty]; rfl)
      · rw [Packet.written, List.flatMap_map]
        exact (Option.some.inj coded).symm
  · contradiction

/-- Where a message has a NAL unit, it is longer than what comes before it. -/
theorem offset_le (split : units (payload.drop offset) = (nals, rest)) (some_ : nals ≠ []) :
    offset + 4 ≤ payload.length := by
  obtain ⟨nal, more, rfl⟩ := List.exists_cons_of_ne_nil some_
  obtain ⟨whole, -, -⟩ := units_whole split
  have length := congrArg List.length whole
  rw [List.length_drop, List.flatMap_cons, List.length_append, List.length_append, length_framed] at length
  omega

theorem units_short (short : payload.length < n) (split : units (payload.drop offset) = (nals, rest)) :
    ∀ nal ∈ nals, nal.length < n := by
  intro nal member
  have length := congrArg List.length (units_whole split).1
  have := length_of_mem member
  rw [List.length_drop, List.length_append] at length
  omega

theorem coded_units (short : payload.length < 2 ^ 31) (coded : (g.coded payload offset).2 = some out)
    (split : units (payload.drop offset) = (nals, rest)) :
    offset + 4 ≤ payload.length ∧ out = payload.take offset ++ (g.packet.written nals).flatMap framed ++ rest ∧
      units (out.drop offset) = (g.packet.written nals, rest) := by
  obtain ⟨some_, written⟩ := coded_some coded
  rw [split] at some_ written
  have inside := offset_le split some_
  have front : (payload.take offset).length = offset := List.length_take_of_le (by omega)
  refine ⟨inside, written, ?_⟩
  have short' := written_short g.packet (units_short short split)
  rw [written, List.append_assoc, List.drop_left' front, units_flatMap short',
    (units_whole split).2.1, List.append_nil]

private theorem coded_none (lengthsOk : g.lengthsOk = true) (unchanged : (g.coded payload offset).2 = none) :
    g.packet.written (units (payload.drop offset)).1 = (units (payload.drop offset)).1 := by
  unfold PocGuard.coded at unchanged
  rw [if_pos lengthsOk] at unchanged
  dsimp only at unchanged
  split at unchanged
  · next none_ => exact written_unchanged _ none_
  · contradiction

/-- Whether it is changed or not, the message that is written is read as the one that came, and its NAL units are those
that are written. -/
theorem coded_written {info : VideoInfo} (short : payload.length < 2 ^ 31) (lengthsOk : g.lengthsOk = true)
    (read : inspectVideo payload = some info) (data : info.nalOffset = some offset) :
    (∃ info', inspectVideo ((g.coded payload offset).2.getD payload) = some info' ∧ info.Alike info') ∧
      (units (((g.coded payload offset).2.getD payload).drop offset)).1 =
        g.packet.written (units (payload.drop offset)).1 := by
  cases coded : (g.coded payload offset).2 with
  | none =>
    rw [Option.getD_none, coded_none lengthsOk coded]
    exact ⟨⟨info, read, rfl, rfl, rfl, rfl⟩, rfl⟩
  | some out =>
    rw [Option.getD_some]
    cases split : units (payload.drop offset) with
    | mk nals rest =>
      obtain ⟨inside, written, again⟩ := coded_units short coded split
      refine ⟨inspectVideo_early read data (fun i before => ?_) (by omega), congrArg Prod.fst again⟩
      have front : i < (payload.take offset).length := by
        rw [List.length_take]
        omega
      rw [written, List.append_assoc, List.getElem?_append_left front, List.getElem?_take_of_lt before]

/-! ## Messages to try the guard with -/

/-- A decoder configuration with a sequence parameter set for order counts of 4 bits and a picture parameter set. -/
def configuration4 : Bytes :=
  [144, 104, 118, 99, 49, 0, 0, 0, 0, 0, 0, 0, 0, 0, 0, 0, 0, 0, 0, 0, 0, 0, 0, 0, 0, 0, 3, 2, 161, 0, 1, 0, 25, 66, 1,
    0, 0, 3, 0, 0, 3, 0, 0, 3, 0, 0, 3, 1, 35, 69, 103, 137, 160, 136, 69, 254, 188, 40, 162, 0, 1, 0, 3, 68, 1, 193]

/-- A message with these NAL units. -/
def frame (nals : List Bytes) : Bytes := [147, 104, 118, 99, 49] ++ nals.flatMap framed

end StreamDelay.Flv.Hevc
