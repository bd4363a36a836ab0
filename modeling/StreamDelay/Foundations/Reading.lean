import Mathlib.Tactic.Common

/-! # Reading a list from its front

A reader takes some items off the front of a list and makes something of them, or fails. It reads
`items` as `a` when that is what it makes of them whatever follows, and what follows is left. Readers
run one after the other read what they read one after the other.
-/

namespace StreamDelay.Foundations

/-- A reader of lists of `τ`. -/
abbrev Reader (ε τ α : Type) := StateT (List τ) (Except ε) α

namespace Reader

variable {ε τ α β : Type} {items more : List τ} {a : α} {b : β}

/-- The first `n` items. -/
def take (eof : ε) (n : ℕ) : Reader ε τ (List τ) := fun left =>
  if n ≤ left.length then .ok (left.take n, left.drop n) else .error eof

/-- `reader` makes `a` of `items`, and leaves what follows. -/
def Reads (reader : Reader ε τ α) (items : List τ) (a : α) : Prop :=
  ∀ rest, reader (items ++ rest) = .ok (a, rest)

theorem reads_pure (a : α) : Reads (pure a : Reader ε τ α) [] a := fun _ => rfl

theorem Reads.bind {first : Reader ε τ α} {f : α → Reader ε τ β} (reads : Reads first items a)
    (later : Reads (f a) more b) : Reads (first >>= f) (items ++ more) b := by
  intro rest
  show (do let (a, left) ← first (items ++ more ++ rest); f a left) = _
  rw [List.append_assoc, reads (more ++ rest)]
  exact later rest

/-- A reader that goes on from what another read. -/
theorem Reads.map {first : Reader ε τ α} {f : α → β} (reads : Reads first items a) :
    Reads (f <$> first) items (f a) := by
  intro rest
  show (do let (a, left) ← first (items ++ rest); pure (f a, left)) = _
  rw [reads rest]
  rfl

theorem reads_take (eof : ε) (items : List τ) : Reads (take eof items.length) items items := by
  intro rest
  unfold take
  rw [if_pos (by simp), List.take_left, List.drop_left]

end Reader

end StreamDelay.Foundations
