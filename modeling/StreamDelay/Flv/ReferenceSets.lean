import StreamDelay.Flv.Bits
import StreamDelay.Foundations.Checked

/-! # Short-term reference picture sets -/

namespace StreamDelay.Flv.Hevc

open Foundations Bits

/-- The order count differences of the pictures kept, before and after the picture (nearest first). -/
structure Rps where
  before : List ℤ := []
  after : List ℤ := []
deriving DecidableEq, Repr

namespace Rps

def MAX : ℕ := 16

/-- Whether each of `n` pictures is kept: used by the picture, or else `use_delta_flag`. -/
def keptFlags : ℕ → Partial Bits (List Bool)
  | 0 => pure []
  | n + 1 => do
    let used ← bit
    let kept ← if used then pure true else bit
    let rest ← keptFlags n
    pure (kept :: rest)

/-- The differences of `entries` that are kept and `wanted` once they have moved by `delta`. -/
def shifted (delta : ℤ) (wanted : ℤ → Bool) (entries : List (ℤ × Bool)) : List ℤ :=
  entries.filterMap fun (d, kept) => if wanted (d + delta) && kept then some (d + delta) else none

/-- The picture the set was predicted for, as one of this set. -/
def own (delta : ℤ) (wanted kept : Bool) : List ℤ := if wanted && kept then [delta] else []

/-- H.265 (7-61) and (7-62): a set moved by `delta`, of which `kept` stay. -/
def predicted (base : Rps) (delta : ℤ) (kept : List Bool) : Rps :=
  let k := base.before.length
  let n := k + base.after.length
  let before := base.before.zip kept
  let after := base.after.zip (kept.drop k)
  let ownKept := kept.getD n false
  { before := shifted delta (· < 0) after.reverse ++ own delta (delta < 0) ownKept ++ shifted delta (· < 0) before
    after := shifted delta (0 < ·) before.reverse ++ own delta (0 < delta) ownKept ++ shifted delta (0 < ·) after }

/-- `count` differences, each further from the picture than `prev`. -/
def deltas (sign : ℤ) : ℕ → ℤ → Partial Bits (List ℤ)
  | 0, _ => pure []
  | count + 1, prev => do
    let d ← ue
    if 32768 < d + 1 then failure
    else
      let next := prev + sign * (d + 1)
      skip 1
      let rest ← deltas sign count next
      pure (next :: rest)

/-- A set of its own. -/
def explicit : Partial Bits Rps := do
  let negative ← ue
  let positive ← ue
  if MAX ≤ negative ∨ MAX ≤ positive then failure
  else
    let before ← deltas (-1) negative 0
    let after ← deltas 1 positive 0
    pure ⟨before, after⟩

/-- How far a predicted set moves. -/
def readDelta : Partial Bits ℤ := do
  let negative ← bit
  let abs ← ue
  if 32768 < abs + 1 then failure else pure (if negative then -(abs + 1) else abs + 1)

/-- A set predicted from one of `sets`. -/
def interSet (sets : List Rps) (idx : ℕ) (inSlice : Bool) : Partial Bits Rps := do
  let deltaIdx ← (if inSlice then (· + 1) <$> ue else pure 1 : Partial Bits ℕ)
  if idx < deltaIdx then failure
  else
    match sets[idx - deltaIdx]? with
    | none => failure
    | some base =>
      let delta ← readDelta
      let kept ← keptFlags (base.before.length + base.after.length + 1)
      let set := base.predicted delta kept
      if set.before.length + set.after.length ≤ MAX then pure set else failure

/-- st_ref_pic_set(`idx`), predicted from `sets` when it says so; `idx` is num_short_term_ref_pic_sets in a slice
header. -/
def stRefPicSet (sets : List Rps) (idx : ℕ) (inSlice : Bool) : Partial Bits Rps := do
  let inter ← (if idx ≠ 0 then bit else pure false : Partial Bits Bool)
  if inter then interSet sets idx inSlice else explicit

/-! ## With every sum checked -/

namespace Checked

open Checking

def shifted (delta : ℤ) (wanted : ℤ → Bool) : List (ℤ × Bool) → Option (List ℤ)
  | [] => some []
  | (d, kept) :: rest => do
    let sum ← Foundations.Checked.addSigned 32 d delta
    let rest ← shifted delta wanted rest
    return if wanted sum && kept then sum :: rest else rest

def predicted (base : Rps) (delta : ℤ) (kept : List Bool) : Option Rps := do
  let k := base.before.length
  let n := k + base.after.length
  let before := base.before.zip kept
  let after := base.after.zip (kept.drop k)
  let ownKept := kept.getD n false
  return {
    before := (← shifted delta (· < 0) after.reverse) ++ own delta (delta < 0) ownKept ++
      (← shifted delta (· < 0) before)
    after := (← shifted delta (0 < ·) before.reverse) ++ own delta (0 < delta) ownKept ++
      (← shifted delta (0 < ·) after) }

def deltas (sign : ℤ) : ℕ → ℤ → Checking Bits (List ℤ)
  | 0, _ => pure []
  | count + 1, prev => do
    let d ← plain ue
    if 32768 < d + 1 then failure
    else
      let next ← check (Foundations.Checked.addSigned 32 prev (sign * (d + 1)))
      plain (skip 1)
      let rest ← deltas sign count next
      pure (next :: rest)

def explicit : Checking Bits Rps := do
  let negative ← plain ue
  let positive ← plain ue
  if MAX ≤ negative ∨ MAX ≤ positive then failure
  else
    let before ← deltas (-1) negative 0
    let after ← deltas 1 positive 0
    pure ⟨before, after⟩

def interSet (sets : List Rps) (idx : ℕ) (inSlice : Bool) : Checking Bits Rps := do
  let deltaIdx ← plain (if inSlice then (· + 1) <$> ue else pure 1)
  if idx < deltaIdx then failure
  else
    match sets[idx - deltaIdx]? with
    | none => failure
    | some base =>
      let delta ← plain readDelta
      let kept ← plain (keptFlags (base.before.length + base.after.length + 1))
      let set ← check (predicted base delta kept)
      if set.before.length + set.after.length ≤ MAX then pure set else failure

def stRefPicSet (sets : List Rps) (idx : ℕ) (inSlice : Bool) : Checking Bits Rps := do
  let inter ← plain (if idx ≠ 0 then bit else pure false)
  if inter then interSet sets idx inSlice else explicit

end Checked

end Rps

end StreamDelay.Flv.Hevc
