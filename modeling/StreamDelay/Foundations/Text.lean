import Mathlib.Tactic.Common
import Mathlib.Data.List.DropRight
import Mathlib.Data.Nat.Digits.Defs

/-! # Texts as lists of characters

Trimming, cutting at a separator, and numbers in decimal.
-/

namespace StreamDelay.Foundations

abbrev Text := List Char

namespace Text

variable {t head tail : Text} {c : Char}

/-! ## Kinds of characters -/

def isDigit (c : Char) : Bool := 48 ≤ c.toNat && c.toNat ≤ 57

def isAlphanumeric (c : Char) : Bool :=
  isDigit c || (65 ≤ c.toNat && c.toNat ≤ 90) || (97 ≤ c.toNat && c.toNat ≤ 122)

/-! ## Trimming -/

/-- White space, as Unicode has it. -/
def isWhite (c : Char) : Bool :=
  let n := c.toNat
  (9 ≤ n && n ≤ 13) || n == 32 || n == 0x85 || n == 0xA0 || n == 0x1680 || (0x2000 ≤ n && n ≤ 0x200A) ||
    n == 0x2028 || n == 0x2029 || n == 0x202F || n == 0x205F || n == 0x3000

/-- Without what satisfies `p` at both ends. -/
def trimBy (p : Char → Bool) (t : Text) : Text := (t.dropWhile p).rdropWhile p

def trim (t : Text) : Text := trimBy isWhite t

/-- Nothing at either end satisfies `p`. -/
def Trimmed (p : Char → Bool) (t : Text) : Prop :=
  (∀ c ∈ t.head?, p c = false) ∧ ∀ c ∈ t.getLast?, p c = false

/-! ## Cutting -/

/-- The parts before and after the first separator. -/
def splitOnce (sep : Char) : Text → Option (Text × Text)
  | [] => none
  | c :: rest => if c = sep then some ([], rest) else (splitOnce sep rest).map fun (a, b) => (c :: a, b)

/-- The rest of a text that starts with `head`, in either case of its letters. -/
def stripPrefixCi (head t : Text) : Option Text :=
  if (t.take head.length).map Char.toLower = head then some (t.drop head.length) else none

/-! ## Numbers -/

def digitChar (d : ℕ) : Char := .ofNat (48 + d)

/-- A positive number in decimal. -/
def decimal (n : ℕ) : Text := (Nat.digits 10 n).reverse.map digitChar

def digitValue (c : Char) : Option ℕ := if 48 ≤ c.toNat ∧ c.toNat ≤ 57 then some (c.toNat - 48) else none

/-- The value of decimal digits, of which there is one at least. -/
def number (t : Text) : Option ℕ :=
  if t = [] then none else (t.mapM digitValue).map fun ds => Nat.ofDigits 10 ds.reverse

/-- A 16-bit number, which may have a plus sign before it. -/
def parseU16 (t : Text) : Option ℕ :=
  (number (if t.head? = some '+' then t.tail else t)).filter fun n => n < 2 ^ 16

/-! ## What trimming leaves -/

theorem trimBy_trimmed (p : Char → Bool) (t : Text) : Trimmed p (trimBy p t) := by
  constructor
  · intro c first
    obtain ⟨rest, whole⟩ := List.rdropWhile_prefix p (l := t.dropWhile p)
    have start : (t.dropWhile p).head? = some c := by
      rw [← whole, List.head?_append, show ((t.dropWhile p).rdropWhile p).head? = some c from first]
      rfl
    have stopped := List.head?_dropWhile_not p t
    rw [start] at stopped
    simpa using stopped
  · intro c last
    have there : ((t.dropWhile p).rdropWhile p).getLast? = some c := last
    have some : (t.dropWhile p).rdropWhile p ≠ [] := by
      intro none
      rw [none] at there
      contradiction
    have stopped := List.rdropWhile_last_not p _ some
    rw [(List.getLast_eq_iff_getLast?_eq_some some).mpr there] at stopped
    simpa using stopped

theorem trimBy_of_trimmed {p : Char → Bool} (trimmed : Trimmed p t) : trimBy p t = t := by
  have front : t.dropWhile p = t := by
    cases t with
    | nil => rfl
    | cons c rest =>
      rw [List.dropWhile_cons, trimmed.1 c rfl]
      rfl
  rw [trimBy, front, List.rdropWhile_eq_self_iff]
  intro some
  rw [trimmed.2 _ (List.getLast?_eq_some_getLast some)]
  exact Bool.false_ne_true

theorem trim_trim (t : Text) : trim (trim t) = trim t := trimBy_of_trimmed (trimBy_trimmed ..)

/-- Trimming the end stops at what it does not trim. -/
theorem rdropWhile_append {p : Char → Bool} (stop : ∀ c ∈ head.getLast?, p c = false) (tail : Text) :
    (head ++ tail).rdropWhile p = head ++ tail.rdropWhile p := by
  induction tail using List.reverseRecOn with
  | nil =>
    rw [List.append_nil, List.rdropWhile_nil, List.append_nil, List.rdropWhile_eq_self_iff]
    intro some
    rw [stop _ (List.getLast?_eq_some_getLast some)]
    exact Bool.false_ne_true
  | append_singleton tail c ih =>
    rw [← List.append_assoc, List.rdropWhile_concat, List.rdropWhile_concat]
    split
    · exact ih
    · exact List.append_assoc ..

theorem drop_rdropWhile (p : Char → Bool) (t : Text) : t.drop (t.rdropWhile p).length = t.rtakeWhile p :=
  List.append_cancel_left ((List.prefix_iff_eq_append.mp (List.rdropWhile_prefix p t)).trans
    List.rdropWhile_append_rtakeWhile.symm)

/-! ## What cutting gives -/

theorem splitOnce_of_notMem (absent : c ∉ t) : splitOnce c t = none := by
  induction t with
  | nil => rfl
  | cons x rest ih =>
    rw [List.mem_cons, not_or] at absent
    rw [splitOnce, if_neg (Ne.symm absent.1), ih absent.2]
    rfl

theorem splitOnce_append (absent : c ∉ head) (tail : Text) : splitOnce c (head ++ c :: tail) = some (head, tail) := by
  induction head with
  | nil => exact if_pos rfl
  | cons x rest ih =>
    rw [List.mem_cons, not_or] at absent
    rw [List.cons_append, splitOnce, if_neg (Ne.symm absent.1), ih absent.2]
    rfl

/-- The parts make the text, and the first holds no separator. -/
theorem splitOnce_some (split : splitOnce c t = some (head, tail)) : t = head ++ c :: tail ∧ c ∉ head := by
  induction t generalizing head with
  | nil => contradiction
  | cons x rest ih =>
    rw [splitOnce] at split
    split at split
    · next same =>
      obtain ⟨rfl, rfl⟩ := Prod.mk.inj (Option.some.inj split)
      exact ⟨by rw [same]; rfl, List.not_mem_nil⟩
    · next different =>
      obtain ⟨⟨a, b⟩, found, parts⟩ := Option.map_eq_some_iff.mp split
      obtain ⟨rfl, rfl⟩ := Prod.mk.inj parts
      obtain ⟨rfl, absent⟩ := ih found
      refine ⟨rfl, ?_⟩
      rw [List.mem_cons, not_or]
      exact ⟨Ne.symm different, absent⟩

theorem splitOnce_none (split : splitOnce c t = none) : c ∉ t := by
  induction t with
  | nil => exact List.not_mem_nil
  | cons x rest ih =>
    rw [splitOnce] at split
    split at split
    · contradiction
    · next different =>
      rw [List.mem_cons, not_or]
      exact ⟨Ne.symm different, ih (Option.map_eq_none_iff.mp split)⟩

/-- What is before the first separator, or the whole text. -/
theorem splitOnce_takeWhile (c : Char) (t : Text) :
    ((splitOnce c t).map Prod.fst).getD t = t.takeWhile (· ≠ c) := by
  cases cut : splitOnce c t with
  | none =>
    refine (List.takeWhile_eq_self_iff.mpr fun x member => ?_).symm
    exact decide_eq_true fun same => splitOnce_none cut (same ▸ member)
  | some parts =>
    obtain ⟨head, tail⟩ := parts
    obtain ⟨rfl, absent⟩ := splitOnce_some cut
    have before : ∀ x ∈ head, decide (x ≠ c) = true := fun x member =>
      decide_eq_true fun same => absent (same ▸ member)
    rw [List.takeWhile_append_of_pos before, List.takeWhile_cons]
    simp

/-- Separators at the end do not matter to what is before the first. -/
theorem takeWhile_rdropWhile (c : Char) (t : Text) :
    (t.rdropWhile (· = c)).takeWhile (· ≠ c) = t.takeWhile (· ≠ c) := by
  have none : (t.rtakeWhile (· = c)).takeWhile (· ≠ c) = [] := by
    cases ends : t.rtakeWhile (· = c) with
    | nil => rfl
    | cons x rest =>
      have same := List.mem_rtakeWhile_imp (p := (· = c)) (ends ▸ List.mem_cons_self .. : x ∈ t.rtakeWhile (· = c))
      rw [decide_eq_true_eq] at same
      exact List.takeWhile_cons_of_neg (by simp [same])
  have whole := @List.takeWhile_append _ (· ≠ c) (t.rdropWhile (· = c)) (t.rtakeWhile (· = c))
  rw [List.rdropWhile_append_rtakeWhile, none, List.append_nil] at whole
  split at whole
  · next all => exact ((List.takeWhile_prefix _).eq_of_length all).trans whole.symm
  · exact whole.symm

/-! ## Numbers are read back -/

theorem digitValue_digitChar {d : ℕ} (small : d < 10) : digitValue (digitChar d) = some d := by
  revert small
  decide +revert

theorem mapM_digitValue {ds : List ℕ} (small : ∀ d ∈ ds, d < 10) :
    (ds.map digitChar).mapM digitValue = some ds := by
  induction ds with
  | nil => rfl
  | cons d rest ih =>
    have later := ih fun x member => small x (List.mem_cons_of_mem _ member)
    rw [List.map_cons, List.mapM_cons, digitValue_digitChar (small d (List.mem_cons_self ..)), later]
    rfl

theorem digitChar_range {d : ℕ} (small : d < 10) : 48 ≤ (digitChar d).toNat ∧ (digitChar d).toNat ≤ 57 := by
  have value := digitValue_digitChar small
  unfold digitValue at value
  split at value
  · assumption
  · contradiction

theorem decimal_digits {n : ℕ} (member : c ∈ decimal n) : 48 ≤ c.toNat ∧ c.toNat ≤ 57 := by
  obtain ⟨d, digit, rfl⟩ := List.mem_map.mp member
  exact digitChar_range (Nat.digits_lt_base (by decide) (List.mem_reverse.mp digit))

theorem parseU16_decimal {n : ℕ} (positive : n ≠ 0) (small : n < 2 ^ 16) : parseU16 (decimal n) = some n := by
  have unsigned : (decimal n).head? ≠ some '+' := by
    intro plus
    have digit := decimal_digits (List.mem_of_mem_head? plus)
    exact absurd digit (by decide)
  have some : decimal n ≠ [] := by
    unfold decimal
    rw [ne_eq, List.map_eq_nil_iff, List.reverse_eq_nil_iff]
    exact Nat.digits_ne_nil_iff_ne_zero.mpr positive
  unfold parseU16 number
  rw [if_neg unsigned, if_neg some, decimal, mapM_digitValue, Option.map_some, List.reverse_reverse,
    Nat.ofDigits_digits]
  · exact (Option.filter_eq_some_iff).mpr ⟨rfl, decide_eq_true small⟩
  · intro d digit
    exact Nat.digits_lt_base (by decide) (List.mem_reverse.mp digit)

end Text

end StreamDelay.Foundations
