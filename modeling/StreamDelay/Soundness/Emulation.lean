import Mathlib.Data.List.DropRight
import StreamDelay.Flv.Emulation

/-! # Escaping and unescaping NAL units

Either undoes the other, and what has been escaped holds no start code. Both scans count the zero bytes since
the last other one; they agree on the count at every byte that they share.
-/

namespace StreamDelay.Flv.Hevc

/-- No two zero bytes are followed by a byte of at most 2. -/
def NoStartCode (nal : Bytes) : Prop := ∀ b ≤ 2, ¬[0, 0, b] <:+: nal

/-- A NAL unit as an encoder writes it. -/
structure WellFormed (nal : Bytes) : Prop where
  clear : NoStartCode nal
  /-- An emulation prevention byte is at the end, or followed by a byte of at most 3. -/
  marked : ∀ front rest, nal = front ++ [0, 0, 3] ++ rest → ∀ b ∈ rest.head?, b ≤ 3
  ending : nal.getLast? ≠ some 0

/-- The number of zero bytes at the end. -/
def zerosAtEnd (raw : Bytes) : ℕ := (raw.rtakeWhile (· = 0)).length

variable {zeros : ℕ} {b : UInt8} {nal raw rest : Bytes}

/-! ## What is escaped is read back -/

/-- The count of zero bytes the scan of `escape` ends with. -/
def escapedZeros : ℕ → Bytes → ℕ
  | zeros, [] => zeros
  | zeros, b :: rest =>
    if 2 ≤ zeros ∧ b ≤ 3 then escapedZeros (if b = 0 then 1 else 0) rest
    else escapedZeros (if b = 0 then zeros + 1 else 0) rest

/-- Unescaping follows the scan that escaped, and goes on from its count. -/
theorem unescapeLoop_escapeLoop (zeros : ℕ) (raw more : Bytes) :
    unescapeLoop zeros (escapeLoop zeros raw ++ more) = raw ++ unescapeLoop (escapedZeros zeros raw) more := by
  induction raw generalizing zeros with
  | nil => rfl
  | cons b rest ih =>
    unfold escapeLoop escapedZeros
    split
    · next low =>
      rw [List.cons_append, List.cons_append, unescapeLoop, if_pos ⟨low.1, rfl⟩, unescapeLoop, if_neg (by simp)]
      rw [ih, List.cons_append, Nat.zero_add]
    · next free =>
      have kept : ¬(2 ≤ zeros ∧ b = 3) := fun marked => free ⟨marked.1, marked.2 ▸ UInt8.le_refl 3⟩
      rw [List.cons_append, unescapeLoop, if_neg kept, ih, List.cons_append]

/-- Zero bytes in a row, counted from the last mark: there is one after every second. -/
def sinceMark (n : ℕ) : ℕ := if n = 0 then 0 else 2 - n % 2

def zerosAfter (n : ℕ) (raw : Bytes) : ℕ := raw.foldl (fun n b => if b = 0 then n + 1 else 0) n

private theorem sinceMark_succ (n : ℕ) : sinceMark (n + 1) = if 2 ≤ sinceMark n then 1 else sinceMark n + 1 := by
  unfold sinceMark
  split_ifs <;> omega

private theorem escapedZeros_sinceMark (n : ℕ) (raw : Bytes) :
    escapedZeros (sinceMark n) raw = sinceMark (zerosAfter n raw) := by
  induction raw generalizing n with
  | nil => rfl
  | cons b rest ih =>
    unfold escapedZeros zerosAfter
    rw [List.foldl_cons]
    by_cases zero : b = 0
    · have next := ih (n + 1)
      rw [sinceMark_succ] at next
      simp only [zero, UInt8.zero_le, and_true, if_true]
      split
      · next many =>
        rw [if_pos many] at next
        exact next
      · next few =>
        rw [if_neg few] at next
        exact next
    · simp only [zero, if_false, ite_self]
      exact ih 0

theorem zerosAtEnd_eq (raw : Bytes) : zerosAtEnd raw = zerosAfter 0 raw := by
  induction raw using List.reverseRecOn with
  | nil => rfl
  | append_singleton front b ih =>
    unfold zerosAtEnd zerosAfter at ih ⊢
    rw [List.rtakeWhile_concat, List.foldl_append, List.foldl_cons, List.foldl_nil, ← ih]
    by_cases zero : b = 0 <;> simp [zero]

theorem getLast?_escapeLoop (zeros : ℕ) (raw : Bytes) : (escapeLoop zeros raw).getLast? = raw.getLast? := by
  induction raw generalizing zeros with
  | nil => rfl
  | cons b rest ih =>
    unfold escapeLoop
    split <;> simp only [List.getLast?_cons, ih, Option.getD_some]

private theorem zerosAtEnd_pos (raw : Bytes) : zerosAtEnd raw ≠ 0 ↔ raw.getLast? = some 0 := by
  induction raw using List.reverseRecOn with
  | nil => simp [zerosAtEnd]
  | append_singleton front b =>
    unfold zerosAtEnd
    rw [List.rtakeWhile_concat, List.getLast?_concat]
    by_cases zero : b = 0 <;> simp [zero]

theorem unescape_escape (even : zerosAtEnd raw % 2 = 0) : unescape (escape raw) = raw := by
  unfold escape unescape
  dsimp only
  rw [getLast?_escapeLoop]
  split
  · next zero =>
    have some_ : zerosAtEnd raw ≠ 0 := (zerosAtEnd_pos raw).mpr zero
    have pair : escapedZeros 0 raw = 2 := by
      rw [show (0 : ℕ) = sinceMark 0 from rfl, escapedZeros_sinceMark, ← zerosAtEnd_eq, sinceMark, if_neg some_]
      omega
    rw [unescapeLoop_escapeLoop, pair]
    exact List.append_nil raw
  · have whole := unescapeLoop_escapeLoop 0 raw []
    rw [List.append_nil, unescapeLoop, List.append_nil] at whole
    exact whole

/-! ## What has been escaped holds no start code -/

/-- Read after `zeros` zero bytes, no start code comes. -/
def Clear : ℕ → Bytes → Prop
  | _, [] => True
  | zeros, b :: rest => (2 ≤ zeros → 2 < b) ∧ Clear (if b = 0 then zeros + 1 else 0) rest

private theorem Clear.noStartCode (clear : Clear zeros nal) : NoStartCode nal := by
  rintro b low ⟨front, rest, rfl⟩
  induction front generalizing zeros with
  | nil =>
    have after : 2 < b := clear.2.2.1 (by simp)
    exact absurd after (UInt8.not_lt.mpr low)
  | cons c front ih => exact ih clear.2

private theorem clear_escapeLoop (zeros : ℕ) (raw : Bytes) : Clear zeros (escapeLoop zeros raw) := by
  induction raw generalizing zeros with
  | nil => exact trivial
  | cons b rest ih =>
    unfold escapeLoop
    split
    · refine ⟨fun _ => by decide, ?_, ?_⟩
      · simp
      · simpa using ih _
    · next free =>
      refine ⟨fun many => ?_, ih _⟩
      have high : 3 < b := UInt8.not_le.mp fun low => free ⟨many, low⟩
      exact UInt8.lt_trans (by decide) high

private theorem Clear.append_mark (clear : Clear zeros nal) : Clear zeros (nal ++ [3]) := by
  induction nal generalizing zeros with
  | nil => exact ⟨fun _ => by decide, trivial⟩
  | cons b rest ih => exact ⟨clear.1, ih clear.2⟩

theorem escape_noStartCode (raw : Bytes) : NoStartCode (escape raw) := by
  have clear := clear_escapeLoop 0 raw
  unfold escape
  dsimp only
  split
  · exact clear.append_mark.noStartCode
  · exact clear.noStartCode

private theorem escape_ending (raw : Bytes) : (escape raw).getLast? ≠ some 0 := by
  unfold escape
  dsimp only
  split
  · rw [List.getLast?_concat]
    decide
  · assumption

/-! ## What is unescaped is escaped the same -/

/-- Read after `zeros` zero bytes, a 3 that is left out is at the end or before a byte of at most 3. -/
def Marked : ℕ → Bytes → Prop
  | _, [] => True
  | zeros, b :: rest =>
    (2 ≤ zeros → 3 ≤ b ∧ (b = 3 → ∀ c ∈ rest.head?, c ≤ 3)) ∧ Marked (if b = 0 then zeros + 1 else 0) rest

private theorem marked_of {zeros : ℕ} (clear : NoStartCode (List.replicate zeros 0 ++ nal))
    (marked : ∀ front rest, List.replicate zeros 0 ++ nal = front ++ [0, 0, 3] ++ rest → ∀ b ∈ rest.head?, b ≤ 3) :
    Marked zeros nal := by
  induction nal generalizing zeros with
  | nil => exact trivial
  | cons b rest ih =>
    refine ⟨fun many => ?_, ?_⟩
    · have split : List.replicate zeros (0 : UInt8) ++ b :: rest =
          List.replicate (zeros - 2) 0 ++ [0, 0, b] ++ rest := by
        obtain ⟨n, rfl⟩ := Nat.exists_eq_add_of_le' many
        rw [Nat.add_sub_cancel, List.replicate_add]
        simp
      refine ⟨?_, ?_⟩
      · by_contra low
        exact clear b (UInt8.not_lt.mp fun high => low (Nat.succ_le_of_lt high)) ⟨_, rest, split.symm⟩
      · rintro rfl
        exact marked _ rest split
    · by_cases zero : b = 0
      · have same : List.replicate (zeros + 1) (0 : UInt8) ++ rest = List.replicate zeros 0 ++ b :: rest := by
          rw [zero, List.replicate_succ', List.append_assoc, List.singleton_append]
        rw [if_pos zero]
        exact ih (same ▸ clear) (same ▸ marked)
      · rw [if_neg zero]
        refine ih (fun c low inside => ?_) fun front more split => ?_
        · exact clear c low (inside.trans ⟨List.replicate zeros 0 ++ [b], [], by simp⟩)
        · exact marked (List.replicate zeros 0 ++ b :: front) more (by simp [← split])

/-- A low byte after two zero bytes is escaped as after none, behind its mark. -/
theorem escapeLoop_low (many : 2 ≤ zeros) (low : b ≤ 3) (rest : Bytes) :
    escapeLoop zeros (b :: rest) = 3 :: escapeLoop 0 (b :: rest) := by
  have first : ¬(2 ≤ 0 ∧ b ≤ 3) := fun marked => absurd marked.1 (by decide)
  rw [escapeLoop, if_pos ⟨many, low⟩, escapeLoop, if_neg first]

/-- Escaping follows the scan that unescaped, but for a mark at the end. -/
theorem escapeLoop_unescapeLoop (marked : Marked zeros nal) (ending : nal.getLast? ≠ some 0) :
    escapeLoop zeros (unescapeLoop zeros nal) = nal ∨
      ∃ out, escapeLoop zeros (unescapeLoop zeros nal) = out ∧ out ++ [3] = nal ∧ (out = [] → 2 ≤ zeros) ∧
        ∀ b ∈ out.getLast?, b = 0 := by
  induction nal generalizing zeros with
  | nil => exact .inl rfl
  | cons b rest ih =>
    obtain ⟨here, later⟩ := marked
    have ending' : rest.getLast? ≠ some 0 := by
      intro zero
      rw [List.getLast?_cons, zero] at ending
      exact ending rfl
    by_cases left : 2 ≤ zeros ∧ b = 3
    · obtain ⟨many, rfl⟩ := left
      rw [unescapeLoop, if_pos ⟨many, rfl⟩]
      cases rest with
      | nil => exact .inr ⟨[], rfl, rfl, fun _ => many, nofun⟩
      | cons c rest =>
        have low : c ≤ 3 := (here many).2 rfl c rfl
        have kept : unescapeLoop 0 (c :: rest) = c :: unescapeLoop (if c = 0 then 1 else 0) rest := by
          rw [unescapeLoop, if_neg (by simp), Nat.zero_add]
        have whole : escapeLoop zeros (unescapeLoop 0 (c :: rest)) =
            3 :: escapeLoop 0 (unescapeLoop 0 (c :: rest)) := by
          rw [kept, escapeLoop_low many low]
        rw [whole]
        rcases ih later ending' with same | ⟨out, short, same, nonempty, last⟩
        · exact .inl (congrArg (3 :: ·) same)
        · refine .inr ⟨3 :: out, congrArg (3 :: ·) short, congrArg (3 :: ·) same, nofun, fun b final => ?_⟩
          cases out with
          | nil => exact absurd (nonempty rfl) (by simp)
          | cons d out => exact last b (by simpa using final)
    · rw [unescapeLoop, if_neg left, escapeLoop, if_neg]
      · rcases ih later ending' with same | ⟨out, short, same, nonempty, last⟩
        · exact .inl (congrArg (b :: ·) same)
        · refine .inr ⟨b :: out, congrArg (b :: ·) short, congrArg (b :: ·) same, nofun, fun c final => ?_⟩
          cases out with
          | nil =>
            have many := nonempty rfl
            by_cases zero : b = 0
            · simpa [zero] using final.symm
            · rw [if_neg zero] at many
              exact absurd many (by decide)
          | cons d out => exact last c (by simpa using final)
      · rintro ⟨many, low⟩
        exact left ⟨many, UInt8.le_antisymm low (here many).1⟩

private theorem escape_unescape (well : WellFormed nal) : escape (unescape nal) = nal := by
  have marked : Marked 0 nal := marked_of well.clear well.marked
  unfold escape unescape
  dsimp only
  rcases escapeLoop_unescapeLoop marked well.ending with same | ⟨out, short, same, nonempty, last⟩
  · rw [same, if_neg well.ending]
  · rw [short]
    cases final : out.getLast? with
    | none => exact absurd (nonempty (List.getLast?_eq_none_iff.mp final)) (by decide)
    | some b =>
      rw [last b final, if_pos rfl]
      exact same

/-- Well-formed NAL units are escaped from what they unescape to; a payload that ends in an even number of zero
bytes is unescaped from what it is escaped to; and no escaped payload holds a start code or ends in a zero
byte. -/
theorem emulation_prevention :
    (∀ nal, WellFormed nal → escape (unescape nal) = nal) ∧
      (∀ raw, zerosAtEnd raw % 2 = 0 → unescape (escape raw) = raw) ∧
      ∀ raw, NoStartCode (escape raw) ∧ (escape raw).getLast? ≠ some 0 :=
  ⟨fun _ => escape_unescape, fun _ => unescape_escape, fun raw => ⟨escape_noStartCode raw, escape_ending raw⟩⟩

theorem emulation_prevention_marked :
    escape (unescape [38, 0, 0, 3, 1]) = [38, 0, 0, 3, 1] ∧
      unescape (escape [38, 0, 0, 0, 0]) = [38, 0, 0, 0, 0] := by
  refine ⟨emulation_prevention.1 _ ⟨?_, ?_, by decide⟩, emulation_prevention.2.1 _ (by decide)⟩
  · rintro b low ⟨front, rest, split⟩
    rcases front with _ | ⟨_, _ | ⟨_, _ | ⟨_, front⟩⟩⟩ <;> simp at split
    · obtain ⟨-, rfl, -⟩ := split
      exact absurd low (by decide)
    · have short := congrArg List.length split.2.2.2
      simp at short
      omega
  · intro front rest split
    rcases front with _ | ⟨_, _ | ⟨_, _ | ⟨_, front⟩⟩⟩ <;> simp at split
    · obtain ⟨-, rfl⟩ := split
      intro b here
      obtain rfl := Option.some.inj here
      decide
    · have short := congrArg List.length split.2.2.2
      simp at short
      omega

end StreamDelay.Flv.Hevc
