import Mathlib.Tactic.Common
import StreamDelay.Flv.PocGuard

/-! # Reading and overwriting single bits

A reader looks at the bits it reads and at no others; overwriting bits leaves the others as they are.
-/

namespace StreamDelay.Flv.Hevc

open Foundations Bits

variable {b b' : Bytes} {pos n v i : ℕ}

/-! ## Overwriting -/

private theorem testBit_mask : ∀ k j : Fin 8,
    ((0x80 : UInt8) >>> UInt8.ofNat k).toNat.testBit (7 - j) = decide (j = k) ∧
      (~~~((0x80 : UInt8) >>> UInt8.ofNat k)).toNat.testBit (7 - j) = decide (j ≠ k) := by
  decide

/-- A byte with one bit overwritten. -/
theorem testBit_put (byte : UInt8) (k j : Fin 8) (v : Bool) :
    (if v then byte ||| ((0x80 : UInt8) >>> UInt8.ofNat k)
      else byte &&& ~~~((0x80 : UInt8) >>> UInt8.ofNat k)).toNat.testBit (7 - j) =
      if j = k then v else byte.toNat.testBit (7 - j) := by
  obtain ⟨set, clear⟩ := testBit_mask k j
  cases v with
  | true =>
    rw [if_pos rfl, UInt8.toNat_or, Nat.testBit_or, set]
    by_cases same : j = k <;> simp [same]
  | false =>
    rw [if_neg Bool.false_ne_true, UInt8.toNat_and, Nat.testBit_and, clear]
    by_cases same : j = k <;> simp [same]

private theorem bitAt_putBit (b : Bytes) (pos i : ℕ) (v : Bool) :
    bitAt (putBit b pos v) i = if i = pos then (bitAt b i).map fun _ => v else bitAt b i := by
  unfold bitAt putBit
  dsimp only
  rw [List.getElem?_modify]
  cases b[i / 8]? with
  | none => simp
  | some x =>
    simp only [Option.map_eq_map, Option.map_some]
    by_cases byte : pos / 8 = i / 8
    · have put := testBit_put x ⟨pos % 8, Nat.mod_lt _ (by decide)⟩ ⟨i % 8, Nat.mod_lt _ (by decide)⟩ v
      rw [if_pos byte, put]
      by_cases same : i = pos
      · rw [if_pos (by rw [same]), if_pos same]
      · rw [if_neg (by rw [Fin.mk.injEq]; omega), if_neg same]
    · rw [if_neg byte, if_neg (by rintro rfl; exact byte rfl)]

@[simp] theorem length_putBit (b : Bytes) (pos : ℕ) (v : Bool) : (putBit b pos v).length = b.length :=
  List.length_modify ..

/-- Overwriting the bits of a list of offsets, one after the other. -/
theorem bitAt_puts (js : List ℕ) (distinct : js.Nodup) (f : ℕ → Bool) (b : Bytes) (i : ℕ) :
    bitAt (js.foldl (fun b j => putBit b (pos + j) (f j)) b) i =
      if ∃ j ∈ js, i = pos + j then (bitAt b i).map fun _ => f (i - pos) else bitAt b i := by
  induction js generalizing b with
  | nil => simp
  | cons j js ih =>
    obtain ⟨fresh, later⟩ := List.nodup_cons.mp distinct
    rw [List.foldl_cons, ih later, bitAt_putBit]
    by_cases here : i = pos + j
    · have absent : ¬∃ j' ∈ js, i = pos + j' := by
        rintro ⟨j', member, same⟩
        obtain rfl : j' = j := by omega
        exact fresh member
      rw [if_neg absent, if_pos here, if_pos ⟨j, List.mem_cons_self .., here⟩, here, Nat.add_sub_cancel_left]
    · rw [if_neg here]
      simp only [List.mem_cons, exists_eq_or_imp, here, false_or]

@[simp] theorem length_putBits (b : Bytes) (pos n v : ℕ) : (putBits b pos n v).length = b.length := by
  unfold putBits
  generalize List.range n = js
  induction js generalizing b with
  | nil => rfl
  | cons j js ih => rw [List.foldl_cons, ih, length_putBit]

theorem bitAt_putBits (b : Bytes) (pos n v i : ℕ) :
    bitAt (putBits b pos n v) i =
      if pos ≤ i ∧ i < pos + n then (bitAt b i).map fun _ => v.testBit (n - 1 - (i - pos)) else bitAt b i := by
  unfold putBits
  rw [bitAt_puts _ List.nodup_range fun j => v.testBit (n - 1 - j)]
  refine if_congr ⟨?_, fun within => ⟨i - pos, List.mem_range.mpr (by omega), by omega⟩⟩ rfl rfl
  rintro ⟨j, member, rfl⟩
  have := List.mem_range.mp member
  omega

theorem getElem?_putBits (b : Bytes) (pos n v : ℕ) {k : ℕ} (outside : k * 8 + 8 ≤ pos ∨ pos + n ≤ k * 8) :
    (putBits b pos n v)[k]? = b[k]? := by
  unfold putBits
  have below : ∀ j ∈ List.range n, j < n := fun _ => List.mem_range.mp
  generalize List.range n = js at below
  induction js generalizing b with
  | nil => rfl
  | cons j js ih =>
    have less := below j (List.mem_cons_self ..)
    rw [List.foldl_cons, ih _ fun j' member => below j' (List.mem_cons_of_mem _ member), putBit,
      List.getElem?_modify_ne _ _ (by omega)]

theorem bitAt_isSome : (bitAt b i).isSome ↔ i < b.length * 8 := by
  unfold bitAt
  rw [Option.isSome_map, Option.isSome_iff_ne_none, ne_eq, List.getElem?_eq_none_iff]
  omega

/-! ## Readers that look only at what they read -/

/-- What `x` gives depends only on the bits it reads. -/
def Local {α : Type} (x : Partial Bits α) : Prop :=
  ∀ b pos a r, x ⟨b, pos⟩ = some (a, r) →
    ∃ pos', r = ⟨b, pos'⟩ ∧ pos ≤ pos' ∧ (pos ≤ b.length * 8 → pos' ≤ b.length * 8) ∧
      ∀ b', (∀ i, pos ≤ i → i < pos' → bitAt b' i = bitAt b i) → pos' ≤ b'.length * 8 →
        x ⟨b', pos⟩ = some (a, ⟨b', pos'⟩)

namespace Local

variable {α β : Type} {x : Partial Bits α} {f : α → Partial Bits β}

theorem pure (a : α) : Local (pure a) := by
  intro b pos a' r read
  obtain ⟨rfl, rfl⟩ := Prod.mk.inj (Option.some.inj read)
  exact ⟨pos, rfl, le_rfl, id, fun _ _ _ => rfl⟩

theorem failure : Local (failure : Partial Bits α) := by
  intro b pos a r read
  contradiction

theorem bind (first : Local x) (later : ∀ a, Local (f a)) : Local (x >>= f) := by
  intro b pos c r read
  obtain ⟨⟨a, middle⟩, here, rest⟩ := Option.bind_eq_some_iff.mp read
  obtain ⟨pos₁, rfl, forward₁, inside₁, again₁⟩ := first b pos a middle here
  obtain ⟨pos₂, rfl, forward₂, inside₂, again₂⟩ := later a b pos₁ c r rest
  refine ⟨pos₂, rfl, Nat.le_trans forward₁ forward₂, fun within => inside₂ (inside₁ within), fun b' same within => ?_⟩
  have again := again₁ b' (fun i after before => same i after (Nat.lt_of_lt_of_le before forward₂))
    (Nat.le_trans forward₂ within)
  show Option.bind (x ⟨b', pos⟩) _ = _
  rw [again]
  exact again₂ b' (fun i after before => same i (Nat.le_trans forward₁ after) before) within

theorem map {g : α → β} (here : Local x) : Local (g <$> x) := by
  rw [map_eq_pure_bind]
  exact here.bind fun a => .pure (g a)

theorem ite {y : Partial Bits α} (c : Prop) [Decidable c] (left : Local x) (right : Local y) :
    Local (if c then x else y) := by
  split
  · exact left
  · exact right

theorem bit : Local bit := by
  intro b pos v r read
  obtain ⟨v', found, same⟩ := Option.map_eq_some_iff.mp read
  obtain ⟨rfl, rfl⟩ := Prod.mk.inj same
  have inside : pos < b.length * 8 := bitAt_isSome.mp (Option.isSome_of_eq_some found)
  refine ⟨pos + 1, rfl, Nat.le_succ pos, fun _ => inside, fun b' same _ => ?_⟩
  unfold Bits.bit
  dsimp only
  rw [same pos le_rfl (Nat.lt_succ_self pos), found]
  rfl

theorem bitsLoop (n v : ℕ) : Local (bitsLoop n v) := by
  induction n generalizing v with
  | zero => exact .pure v
  | succ n ih => exact bit.bind fun _ => ih _

theorem bits (n : ℕ) : Local (bits n) := (bitsLoop n 0).bind fun _ => .ite _ (.pure _) .failure

theorem skip (n : ℕ) : Local (skip n) := by
  intro b pos v r read
  unfold Bits.skip at read
  dsimp only at read
  split at read
  · contradiction
  · next inside =>
    obtain ⟨rfl, rfl⟩ := Prod.mk.inj (Option.some.inj read)
    refine ⟨pos + n, rfl, Nat.le_add_right pos n, fun _ => Nat.le_of_not_lt inside, fun b' _ within => ?_⟩
    unfold Bits.skip
    exact if_neg (Nat.not_lt.mpr within)

theorem leadingZeros (left zeros : ℕ) : Local (leadingZeros left zeros) := by
  induction left generalizing zeros with
  | zero =>
    unfold Bits.leadingZeros
    exact bit.bind fun _ => .ite _ (.pure _) .failure
  | succ left ih =>
    unfold Bits.leadingZeros
    exact bit.bind fun _ => .ite _ (.pure _) (ih _)

theorem ue : Local ue :=
  (leadingZeros 31 0).bind fun _ => (bits _).bind fun _ => .ite _ (.pure _) .failure

theorem onlyIf {x : Partial Bits Unit} (flag : Bool) (here : Local x) : Local (onlyIf flag x) :=
  .ite _ here (.pure ())

theorem flagIf (c : Prop) [Decidable c] : Local (flagIf c) := .ite _ bit (.pure false)

theorem position : Local position := by
  intro b pos a r read
  obtain ⟨rfl, rfl⟩ := Prod.mk.inj (Option.some.inj read)
  exact ⟨pos, rfl, le_rfl, id, fun _ _ _ => rfl⟩

/-! ### Slice segment headers -/

theorem keptFlags (n : ℕ) : Local (Rps.keptFlags n) := by
  induction n with
  | zero => exact .pure []
  | succ n ih =>
    have rest (kept : Bool) : Local (do let rest ← Rps.keptFlags n; Pure.pure (kept :: rest)) :=
      ih.bind fun rest => .pure (kept :: rest)
    exact bit.bind fun _ => .ite _ ((Local.pure true).bind rest) (bit.bind rest)

theorem deltas (sign : ℤ) (count : ℕ) (prev : ℤ) : Local (Rps.deltas sign count prev) := by
  induction count generalizing prev with
  | zero => exact .pure []
  | succ count ih =>
    exact ue.bind fun _ => .ite _ .failure ((skip 1).bind fun _ => (ih _).bind fun _ => .pure _)

theorem explicit : Local Rps.explicit :=
  ue.bind fun _ => ue.bind fun _ =>
    .ite _ .failure ((deltas (-1) _ 0).bind fun _ => (deltas 1 _ 0).bind fun _ => .pure _)

theorem readDelta : Local Rps.readDelta := bit.bind fun _ => ue.bind fun _ => .ite _ .failure (.pure _)

theorem interSet (sets : List Rps) (idx : ℕ) (inSlice : Bool) : Local (Rps.interSet sets idx inSlice) := by
  refine (Local.ite _ ue.map (.pure 1)).bind fun deltaIdx => .ite _ .failure ?_
  split
  · exact .failure
  · exact readDelta.bind fun _ => (keptFlags _).bind fun _ => .ite _ (.pure _) .failure

theorem stRefPicSet (sets : List Rps) (idx : ℕ) (inSlice : Bool) : Local (Rps.stRefPicSet sets idx inSlice) :=
  (Local.ite _ bit (.pure false)).bind fun _ => .ite _ (interSet sets idx inSlice) explicit

theorem sliceRps (sets : List Rps) : Local (sliceRps sets) := by
  refine bit.bind fun given => .ite _ ((bits _).bind fun idx => ?_) (stRefPicSet sets _ true)
  split
  · exact .failure
  · exact .pure _

theorem sliceFront (first : Bool) (pps : Pps) (sps : Sps) : Local (sliceFront first pps sps) :=
  (onlyIf _ (skip _)).bind fun _ => (skip _).bind fun _ => ue.bind fun _ => skip _

theorem sliceCount (first : Bool) (spsId : ℕ) (sps : Sps) : Local (sliceCount first spsId sps) :=
  position.bind fun _ => (bits _).bind fun _ => (sliceRps _).bind fun _ => .pure _

theorem sliceBody (t : UInt8) (first : Bool) (pps : Pps) (sps : Sps) : Local (sliceBody t first pps sps) :=
  (flagIf _).bind fun _ => .ite _ (.pure _)
    ((sliceFront first pps sps).bind fun _ => .ite _ (.pure _) (sliceCount first pps.spsId sps))

theorem sliceReader (p : ParameterSets) (t : UInt8) : Local (p.sliceReader t) := by
  refine bit.bind fun first => (onlyIf _ (skip 1)).bind fun _ => ue.bind fun id => ?_
  split
  · exact .failure
  · split
    · exact .failure
    · exact .ite _ .failure (.sliceBody t first _ _)

end Local

/-! ## Readers that read a set bit -/

/-- One of the bits that `x` reads is set. -/
def ReadsSet {α : Type} (x : Partial Bits α) : Prop :=
  ∀ b pos a r, x ⟨b, pos⟩ = some (a, r) → ∃ i, pos ≤ i ∧ i < r.pos ∧ bitAt b i = some true

namespace ReadsSet

variable {α β : Type} {x : Partial Bits α} {f : α → Partial Bits β}

theorem bind (looks : Local x) (first : ReadsSet x) (later : ∀ a, Local (f a)) : ReadsSet (x >>= f) := by
  intro b pos c r read
  obtain ⟨⟨a, middle⟩, here, rest⟩ := Option.bind_eq_some_iff.mp read
  obtain ⟨pos₁, rfl, -⟩ := looks b pos a middle here
  obtain ⟨pos₂, rfl, forward, -⟩ := later a b pos₁ c r rest
  obtain ⟨i, after, before, set⟩ := first b pos a _ here
  exact ⟨i, after, Nat.lt_of_lt_of_le before forward, set⟩

/-- A bit that is not set, and then one that is. -/
theorem bit {f : Bool → Partial Bits β} (looks : Local (f true)) (clear : ReadsSet (f false)) :
    ReadsSet (bit >>= f) := by
  intro b pos c r read
  obtain ⟨⟨v, middle⟩, here, rest⟩ := Option.bind_eq_some_iff.mp read
  obtain ⟨v', found, same⟩ := Option.map_eq_some_iff.mp here
  obtain ⟨rfl, rfl⟩ := Prod.mk.inj same
  cases v' with
  | true =>
    obtain ⟨pos', rfl, forward, -⟩ := looks b (pos + 1) c r rest
    exact ⟨pos, le_rfl, forward, found⟩
  | false =>
    obtain ⟨i, after, before, set⟩ := clear b (pos + 1) c r rest
    exact ⟨i, Nat.le_of_succ_le after, before, set⟩

theorem failure : ReadsSet (failure : Partial Bits α) := by
  intro b pos a r read
  contradiction

theorem leadingZeros (left zeros : ℕ) : ReadsSet (leadingZeros left zeros) := by
  induction left generalizing zeros with
  | zero =>
    unfold Bits.leadingZeros
    exact bit (Local.pure zeros) failure
  | succ left ih =>
    unfold Bits.leadingZeros
    exact bit (Local.pure zeros) (ih _)

theorem ue : ReadsSet ue :=
  bind (.leadingZeros 31 0) (leadingZeros 31 0) fun _ => (Local.bits _).bind fun _ => .ite _ (.pure _) .failure

theorem explicit : ReadsSet Rps.explicit :=
  bind .ue ue fun _ => Local.ue.bind fun _ =>
    .ite _ .failure ((Local.deltas (-1) _ 0).bind fun _ => (Local.deltas 1 _ 0).bind fun _ => .pure _)

theorem stRefPicSet (sets : List Rps) (idx : ℕ) (inSlice : Bool) : ReadsSet (Rps.stRefPicSet sets idx inSlice) := by
  unfold Rps.stRefPicSet
  split
  · exact bit (Local.interSet sets idx inSlice) explicit
  · exact explicit

/-- The reference picture set of a slice is not written in zero bits. -/
theorem sliceRps (sets : List Rps) : ReadsSet (sliceRps sets) := by
  refine bit ((Local.bits _).bind fun idx => ?_) (stRefPicSet sets _ true)
  split
  · exact .failure
  · exact .pure _

end ReadsSet

/-! ## Unescaping piece by piece -/

/-- What has been unescaped does not depend on what comes later. -/
theorem unescapeLoop_append (zeros : ℕ) (front : Bytes) :
    ∃ zeros', ∀ rest, unescapeLoop zeros (front ++ rest) = unescapeLoop zeros front ++ unescapeLoop zeros' rest := by
  induction front generalizing zeros with
  | nil => exact ⟨zeros, fun _ => rfl⟩
  | cons b front ih =>
    simp only [List.cons_append, unescapeLoop]
    split
    · exact ih 0
    · obtain ⟨zeros', later⟩ := ih (if b = 0 then zeros + 1 else 0)
      exact ⟨zeros', fun rest => by rw [later, List.cons_append]⟩

theorem unescape_front (front rest : Bytes) : unescape front <+: unescape (front ++ rest) := by
  obtain ⟨zeros', later⟩ := unescapeLoop_append 0 front
  exact ⟨unescapeLoop zeros' rest, (later rest).symm⟩

theorem bitAt_front (early : b <+: b') (inside : i < b.length * 8) : bitAt b' i = bitAt b i := by
  obtain ⟨rest, rfl⟩ := early
  unfold bitAt
  rw [List.getElem?_append_left (by omega)]

/-- What is read of the front of an RBSP is read of all of it. -/
theorem Local.of_front {α : Type} {x : Partial Bits α} (looks : Local x) {a : α} {r : Bits} (early : b <+: b')
    (start : pos ≤ b.length * 8) (read : x ⟨b, pos⟩ = some (a, r)) :
    ∃ pos', r = ⟨b, pos'⟩ ∧ pos ≤ pos' ∧ pos' ≤ b.length * 8 ∧ x ⟨b', pos⟩ = some (a, ⟨b', pos'⟩) := by
  obtain ⟨pos', rfl, forward, inside, again⟩ := looks b pos a r read
  have within := inside start
  refine ⟨pos', rfl, forward, within, again b' (fun i _ before => ?_) ?_⟩
  · exact bitAt_front early (Nat.lt_of_lt_of_le before within)
  · exact Nat.le_trans within (Nat.mul_le_mul_right 8 early.length_le)

/-! ## Slices whose order count is written over -/

/-- The bits from `start` on are those of `v`. -/
def Holds (b : Bytes) (start width v : ℕ) : Prop := ∀ j < width, bitAt b (start + j) = some (v.testBit (width - 1 - j))

private theorem bitsLoop_holds {width : ℕ} (acc : ℕ) (holds : Holds b pos width v) :
    bitsLoop width acc ⟨b, pos⟩ = some (acc * 2 ^ width + v % 2 ^ width, ⟨b, pos + width⟩) := by
  induction width generalizing acc pos with
  | zero =>
    show some (acc, Bits.mk b pos) = some (acc * 2 ^ 0 + v % 2 ^ 0, ⟨b, pos + 0⟩)
    rw [Nat.pow_zero, Nat.mod_one, Nat.mul_one, Nat.add_zero, Nat.add_zero]
  | succ width ih =>
    have first := holds 0 (Nat.succ_pos width)
    rw [Nat.add_zero, Nat.add_sub_cancel, Nat.sub_zero] at first
    have later : Holds b (pos + 1) width v := by
      intro j less
      have here := holds (j + 1) (Nat.succ_lt_succ less)
      rw [show pos + (j + 1) = pos + 1 + j by omega, show width + 1 - 1 - (j + 1) = width - 1 - j by omega] at here
      exact here
    show Option.bind (Option.map _ (bitAt b pos)) _ = _
    rw [first]
    show bitsLoop width (2 * acc + (v.testBit width).toNat) ⟨b, pos + 1⟩ = _
    rw [ih _ later, Nat.mod_pow_succ, ← Nat.toNat_testBit, Nat.pow_succ]
    refine congrArg some (Prod.ext ?_ (congrArg (Bits.mk b) (show pos + 1 + width = pos + (width + 1) by omega)))
    dsimp only
    rw [Nat.add_mul, Nat.mul_comm (v.testBit width).toNat, Nat.mul_comm 2 acc, Nat.mul_assoc, Nat.mul_comm 2]
    omega

private theorem bits_holds {width : ℕ} (holds : Holds b pos width v) (fits : v < 2 ^ width) (small : v < 2 ^ 32) :
    bits width ⟨b, pos⟩ = some (v, ⟨b, pos + width⟩) := by
  show Option.bind (bitsLoop width 0 ⟨b, pos⟩) _ = _
  rw [bitsLoop_holds 0 holds, Nat.zero_mul, Nat.zero_add, Nat.mod_eq_of_lt fits]
  show (if v < 2 ^ 32 then Pure.pure v else failure : Partial Bits ℕ) ⟨b, pos + width⟩ = _
  rw [if_pos small]
  rfl

/-- Only the number of bits read moves the position. -/
theorem bitsLoop_pos {width acc : ℕ} {r : Bits} (read : bitsLoop width acc ⟨b, pos⟩ = some (v, r)) :
    r = ⟨b, pos + width⟩ := by
  induction width generalizing acc pos with
  | zero =>
    obtain ⟨-, rfl⟩ := Prod.mk.inj (Option.some.inj read)
    rfl
  | succ width ih =>
    obtain ⟨⟨bit, middle⟩, here, rest⟩ := Option.bind_eq_some_iff.mp read
    obtain ⟨_, -, same⟩ := Option.map_eq_some_iff.mp here
    obtain ⟨-, rfl⟩ := Prod.mk.inj same
    rw [ih rest]
    exact congrArg _ (show pos + 1 + width = pos + (width + 1) by omega)

private theorem bits_pos {width : ℕ} {r : Bits} (read : bits width ⟨b, pos⟩ = some (v, r)) : r = ⟨b, pos + width⟩ := by
  obtain ⟨⟨v', middle⟩, here, rest⟩ := Option.bind_eq_some_iff.mp read
  rw [← bitsLoop_pos here]
  dsimp only at rest
  split at rest
  · exact (Prod.mk.inj (Option.some.inj rest)).2.symm
  · contradiction

/-- With another order count. -/
def Slice.withLsb (s : Slice) (v : ℕ) : Slice := { s with lsb := s.lsb.map fun (start, width, _) => (start, width, v) }

/-- The bits of a slice's order count. -/
def Slice.Within (s : Slice) (i : ℕ) : Prop :=
  ∃ start width lsb, s.lsb = some (start, width, lsb) ∧ start ≤ i ∧ i < start + width

/-- The order count of the slice that `x` reads can be written over, and nothing else of it changes. After the count
comes a set bit. -/
def Renumbers (x : Partial Bits Slice) : Prop :=
  ∀ b pos s r, x ⟨b, pos⟩ = some (s, r) →
    ∃ pos', r = ⟨b, pos'⟩ ∧ pos ≤ pos' ∧ (pos ≤ b.length * 8 → pos' ≤ b.length * 8) ∧
      (∀ start width lsb, s.lsb = some (start, width, lsb) →
        pos ≤ start ∧ ∃ i, start + width ≤ i ∧ i < pos' ∧ bitAt b i = some true) ∧
      ∀ b' v, (∀ i, pos ≤ i → i < pos' → ¬s.Within i → bitAt b' i = bitAt b i) → pos' ≤ b'.length * 8 →
        (∀ start width lsb, s.lsb = some (start, width, lsb) → Holds b' start width v ∧ v < 2 ^ width ∧ v < 2 ^ 32) →
        x ⟨b', pos⟩ = some (s.withLsb v, ⟨b', pos'⟩)

namespace Renumbers

variable {α : Type} {x : Partial Bits α} {f : α → Partial Bits Slice} {y z : Partial Bits Slice} {s : Slice}

theorem failure : Renumbers failure := by
  intro b pos s r read
  contradiction

/-- A slice without an order count. -/
theorem pure (none_ : s.lsb = none) : Renumbers (pure s) := by
  intro b pos s' r read
  obtain ⟨rfl, rfl⟩ := Prod.mk.inj (Option.some.inj read)
  refine ⟨pos, rfl, le_rfl, id, fun _ _ _ some_ => ?_, fun b' v _ _ _ => ?_⟩
  · exact absurd (none_.symm.trans some_) nofun
  · show some (s, _) = some (s.withLsb v, _)
    unfold Slice.withLsb
    rw [none_, Option.map_none, ← none_]

theorem ite (c : Prop) [Decidable c] (left : Renumbers y) (right : Renumbers z) : Renumbers (if c then y else z) := by
  split
  · exact left
  · exact right

theorem bind (first : Local x) (later : ∀ a, Renumbers (f a)) : Renumbers (x >>= f) := by
  intro b pos s r read
  obtain ⟨⟨a, middle⟩, here, rest⟩ := Option.bind_eq_some_iff.mp read
  obtain ⟨pos₁, rfl, forward₁, inside₁, again₁⟩ := first b pos a middle here
  obtain ⟨pos₂, rfl, forward₂, inside₂, count, again₂⟩ := later a b pos₁ s r rest
  refine ⟨pos₂, rfl, Nat.le_trans forward₁ forward₂, fun within => inside₂ (inside₁ within),
    fun start width lsb some_ => ?_, fun b' v same within holds => ?_⟩
  · obtain ⟨after, set⟩ := count start width lsb some_
    exact ⟨Nat.le_trans forward₁ after, set⟩
  · have again := again₁ b' (fun i after before => ?_) (Nat.le_trans forward₂ within)
    · show Option.bind (x ⟨b', pos⟩) _ = _
      rw [again]
      exact again₂ b' v (fun i after => same i (Nat.le_trans forward₁ after)) within holds
    · refine same i after (Nat.lt_of_lt_of_le before forward₂) ?_
      rintro ⟨start, width, lsb, some_, within, -⟩
      have := (count start width lsb some_).1
      omega

theorem sliceCount (first : Bool) (spsId : ℕ) (sps : Sps) : Renumbers (sliceCount first spsId sps) := by
  intro b pos s r read
  obtain ⟨⟨lsb, middle⟩, here, rest⟩ := Option.bind_eq_some_iff.mp (show Option.bind (bits _ ⟨b, pos⟩) _ = _ from read)
  obtain rfl := bits_pos here
  obtain ⟨⟨rps, last⟩, found, same⟩ := Option.bind_eq_some_iff.mp (show Option.bind (sliceRps _ ⟨b, _⟩) _ = _ from rest)
  obtain ⟨rfl, rfl⟩ := Prod.mk.inj (Option.some.inj same)
  obtain ⟨pos', rfl, forward, inside, again⟩ := Local.sliceRps sps.sets b _ rps last found
  obtain ⟨i, after, before, set⟩ := ReadsSet.sliceRps sps.sets b _ rps _ found
  refine ⟨pos', rfl, by omega, fun _ => ?_, ?_, ?_⟩
  · have := bitAt_isSome.mp (Option.isSome_of_eq_some set)
    exact inside (by omega)
  · rintro start width lsb' ⟨⟩
    exact ⟨le_rfl, i, after, before, set⟩
  · intro b' v same within holds
    obtain ⟨held, fits, small⟩ := holds pos sps.log2MaxPocLsb lsb rfl
    have tail := again b' (fun i after before => same i (by omega) before ?_) within
    · show Option.bind (bits sps.log2MaxPocLsb ⟨b', pos⟩) _ = _
      rw [bits_holds held fits small]
      show Option.bind (sliceRps sps.sets ⟨b', pos + sps.log2MaxPocLsb⟩) _ = _
      rw [tail]
      rfl
    · rintro ⟨start, width, lsb', ⟨⟩, _, below⟩
      dsimp only at below
      omega

theorem sliceBody (t : UInt8) (first : Bool) (pps : Pps) (sps : Sps) : Renumbers (sliceBody t first pps sps) :=
  .bind (.flagIf _) fun _ => .ite _ (.pure rfl)
    (.bind (.sliceFront first pps sps) fun _ => .ite _ (.pure rfl) (.sliceCount first pps.spsId sps))

theorem sliceReader (p : ParameterSets) (t : UInt8) : Renumbers (p.sliceReader t) := by
  refine .bind .bit fun first => .bind (.onlyIf _ (.skip 1)) fun _ => .bind .ue fun id => ?_
  split
  · exact failure
  · split
    · exact failure
    · exact .ite _ failure (.sliceBody t first _ _)

end Renumbers

end StreamDelay.Flv.Hevc
