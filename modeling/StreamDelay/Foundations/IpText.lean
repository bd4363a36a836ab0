import Mathlib.Tactic.Common
import StreamDelay.Foundations.Ip
import StreamDelay.Foundations.Text

/-! # Addresses of the Internet as texts

Read as the standard library reads them. A reader takes a part of the text, and gives what follows it.
-/

namespace StreamDelay.Foundations.IpText

open Text

/-- Reads a part of a text, and gives the rest. -/
abbrev Reader (α : Type) := Text → Option (α × Text)

/-- The value of a digit, at a base up to sixteen. -/
def toDigit (radix : ℕ) (c : Char) : Option ℕ :=
  let n := c.toNat
  let value :=
    if 48 ≤ n ∧ n ≤ 57 then some (n - 48)
    else if 97 ≤ n ∧ n ≤ 102 then some (n - 87)
    else if 65 ≤ n ∧ n ≤ 70 then some (n - 55)
    else none
  value.filter (· < radix)

/-- A number of at most `most` digits that is less than `bound`. -/
def readNumber (radix most : ℕ) (zeroPrefix : Bool) (bound : ℕ) : Reader ℕ := fun t =>
  let digits := t.takeWhile fun c => (toDigit radix c).isSome
  let n := (digits.filterMap (toDigit radix)).foldl (fun n d => n * radix + d) 0
  if digits = [] ∨ most < digits.length then none
  else if zeroPrefix = false ∧ digits.head? = some '0' ∧ 1 < digits.length then none
  else if n < bound then some (n, t.drop digits.length)
  else none

/-- Reads a separator before every part but the first. -/
def readSeparator {α : Type} (sep : Char) (first : Bool) (inner : Reader α) : Reader α := fun t =>
  if first then inner t
  else if t.head? = some sep then inner t.tail
  else none

def readOctet : Reader UInt8 := fun t => (readNumber 10 3 false 256 t).map fun (n, rest) => (.ofNat n, rest)

def readIpv4 : Reader IpAddr := fun t => do
  let (a, t) ← readOctet t
  let (b, t) ← readSeparator '.' false readOctet t
  let (c, t) ← readSeparator '.' false readOctet t
  let (d, t) ← readSeparator '.' false readOctet t
  return (.v4 a b c d, t)

def segment (a b : UInt8) : UInt16 := a.toUInt16 <<< 8 ||| b.toUInt16

/-- Reads up to `limit` groups, the last two of which may be an IPv4 address; tells whether they are. -/
def readGroups (first : Bool) : (limit : ℕ) → Text → List UInt16 × Bool × Text
  | 0, t => ([], false, t)
  | limit + 1, t =>
    match if 0 < limit then readSeparator ':' first readIpv4 t else none with
    | some (.v4 a b c d, rest) => ([segment a b, segment c d], true, rest)
    | _ =>
      match readSeparator ':' first (readNumber 16 4 true 65536) t with
      | none => ([], false, t)
      | some (n, rest) =>
        let (groups, embedded, rest) := readGroups false limit rest
        (.ofNat n :: groups, embedded, rest)

def ofSegments : List UInt16 → Option IpAddr
  | [s0, s1, s2, s3, s4, s5, s6, s7] => some (.v6 s0 s1 s2 s3 s4 s5 s6 s7)
  | _ => none

def readIpv6 : Reader IpAddr := fun t =>
  let (head, embedded, rest) := readGroups true 8 t
  if head.length = 8 then (ofSegments head).map fun ip => (ip, rest)
  -- An IPv4 part is not allowed before `::`.
  else if embedded then none
  else
    match rest with
    | ':' :: ':' :: rest =>
      let (tail, _, rest) := readGroups true (8 - (head.length + 1)) rest
      (ofSegments (head ++ List.replicate (8 - head.length - tail.length) 0 ++ tail)).map fun ip => (ip, rest)
    | _ => none

/-- What a reader reads, if it takes the whole text. -/
def whole {α : Type} (reader : Reader α) (t : Text) : Option α :=
  match reader t with
  | some (a, []) => some a
  | _ => none

/-- `parse::<Ipv4Addr>`. -/
def parseIpv4 (t : Text) : Option IpAddr := if 15 < t.length then none else whole readIpv4 t

/-- `parse::<Ipv6Addr>`. -/
def parseIpv6 (t : Text) : Option IpAddr := whole readIpv6 t

/-! ## What readers take -/

/-- What a reader takes is a text of the kind `kind`. -/
def Takes {α : Type} (reader : Reader α) (kind : Text → Prop) : Prop :=
  ∀ t a rest, reader t = some (a, rest) → ∃ g, t = g ++ rest ∧ kind g

variable {α : Type} {reader : Reader α} {kind : Text → Prop} {t g : Text}

theorem Takes.whole (takes : Takes reader kind) {a : α} (read : whole reader t = some a) : kind t := by
  unfold IpText.whole at read
  split at read
  · next found =>
    obtain ⟨g, rfl, holds⟩ := takes _ _ _ found
    rwa [List.append_nil]
  · contradiction

theorem readNumber_takes (radix most : ℕ) (zeroPrefix : Bool) (bound : ℕ) :
    Takes (readNumber radix most zeroPrefix bound) fun g =>
      (∀ c ∈ g, (toDigit radix c).isSome) ∧ g ≠ [] ∧ g.length ≤ most := by
  intro t n rest read
  unfold readNumber at read
  dsimp only at read
  split at read
  · contradiction
  · next proper =>
    split at read
    · contradiction
    · split at read
      · obtain ⟨-, rfl⟩ := Prod.mk.inj (Option.some.inj read)
        obtain ⟨some, short⟩ := not_or.mp proper
        refine ⟨t.takeWhile fun c => (toDigit radix c).isSome, ?_, List.all_eq_true.mp List.all_takeWhile, some,
          Nat.not_lt.mp short⟩
        exact List.prefix_iff_eq_append.mp (List.takeWhile_prefix _) |>.symm
      · contradiction

theorem readSeparator_takes (takes : Takes reader kind) (sep : Char) (first : Bool) :
    Takes (readSeparator sep first reader) fun g => if first then kind g else ∃ rest, g = sep :: rest ∧ kind rest := by
  intro t a rest read
  unfold readSeparator at read
  cases first with
  | true => exact takes t a rest read
  | false =>
    rw [if_neg Bool.false_ne_true] at read
    split at read
    · next here =>
      obtain ⟨tail, rfl⟩ := List.head?_eq_some_iff.mp here
      obtain ⟨g, same, holds⟩ := takes _ _ _ read
      rw [List.tail_cons] at same
      exact ⟨sep :: g, by rw [same]; rfl, g, rfl, holds⟩
    · contradiction

/-! ## Dotted quads -/

/-- One to three digits. -/
def Group (g : Text) : Prop := (∀ c ∈ g, isDigit c) ∧ g ≠ [] ∧ g.length ≤ 3

/-- Four groups joined by dots. -/
inductive Quad : Text → Prop where
  | mk {a b c d : Text} (first : Group a) (second : Group b) (third : Group c) (fourth : Group d) :
    Quad (a ++ '.' :: (b ++ '.' :: (c ++ '.' :: d)))

theorem isDigit_of_toDigit {c : Char} (digit : (toDigit 10 c).isSome) : isDigit c := by
  unfold toDigit at digit
  unfold isDigit
  dsimp only at digit
  split at digit
  · next range => simp [range]
  · split at digit
    · next range =>
      rw [Option.filter_some, if_neg (by simp only [decide_eq_true_eq]; omega)] at digit
      contradiction
    · split at digit
      · next range =>
        rw [Option.filter_some, if_neg (by simp only [decide_eq_true_eq]; omega)] at digit
        contradiction
      · contradiction

theorem toDigit_of_isDigit {c : Char} (digit : isDigit c) : (toDigit 16 c).isSome := by
  rw [isDigit, Bool.and_eq_true, decide_eq_true_eq, decide_eq_true_eq] at digit
  unfold toDigit
  dsimp only
  rw [if_pos digit, Option.filter_some, if_pos (decide_eq_true (by omega))]
  rfl

theorem readOctet_takes : Takes readOctet Group := by
  intro t a rest read
  obtain ⟨⟨n, rest'⟩, found, same⟩ := Option.map_eq_some_iff.mp read
  obtain ⟨-, rfl⟩ := Prod.mk.inj same
  obtain ⟨g, parts, digits, some, short⟩ := readNumber_takes _ _ _ _ _ _ _ found
  exact ⟨g, parts, fun c member => isDigit_of_toDigit (digits c member), some, short⟩

theorem readIpv4_takes : Takes readIpv4 Quad := by
  intro t ip rest read
  unfold readIpv4 at read
  obtain ⟨⟨a, t1⟩, first, read⟩ := Option.bind_eq_some_iff.mp read
  obtain ⟨⟨b, t2⟩, second, read⟩ := Option.bind_eq_some_iff.mp read
  obtain ⟨⟨c, t3⟩, third, read⟩ := Option.bind_eq_some_iff.mp read
  obtain ⟨⟨d, t4⟩, fourth, read⟩ := Option.bind_eq_some_iff.mp read
  obtain ⟨-, rfl⟩ := Prod.mk.inj (Option.some.inj read)
  obtain ⟨g1, rfl, group1⟩ := readOctet_takes _ _ _ first
  obtain ⟨_, rfl, g2, rfl, group2⟩ := readSeparator_takes readOctet_takes '.' false _ _ _ second
  obtain ⟨_, rfl, g3, rfl, group3⟩ := readSeparator_takes readOctet_takes '.' false _ _ _ third
  obtain ⟨_, rfl, g4, rfl, group4⟩ := readSeparator_takes readOctet_takes '.' false _ _ _ fourth
  refine ⟨_, ?_, .mk group1 group2 group3 group4⟩
  simp only [List.append_assoc, List.cons_append]

/-- What reads as an IPv4 address is a dotted quad. -/
theorem parseIpv4_quad {ip : IpAddr} (parsed : parseIpv4 t = some ip) : Quad t := by
  unfold parseIpv4 at parsed
  split at parsed
  · contradiction
  · exact readIpv4_takes.whole parsed

/-! ## Dots follow digits -/

/-- Every dot follows a digit. -/
def Follows (t : Text) : Prop := ∀ front back, t = front ++ '.' :: back → ∃ c ∈ front.getLast?, isDigit c

theorem Follows.of_notMem (absent : '.' ∉ t) : Follows t := by
  rintro front back rfl
  exact absurd (List.mem_append.mpr (.inr (List.mem_cons_self ..))) absent

theorem Follows.append (first : Follows g) (second : Follows t) : Follows (g ++ t) := by
  intro front back whole
  rcases List.append_eq_append_iff.mp whole with ⟨mid, rfl, rest⟩ | ⟨mid, rfl, rest⟩
  · obtain ⟨c, last, digit⟩ := second mid back rest
    refine ⟨c, ?_, digit⟩
    rw [List.getLast?_append, last]
    rfl
  · cases mid with
    | nil =>
      obtain ⟨c, last, -⟩ := second [] back rest.symm
      contradiction
    | cons x mid =>
      obtain ⟨rfl, rfl⟩ := List.cons.inj rest
      exact first front mid rfl

theorem Group.last (group : Group g) : ∃ c ∈ g.getLast?, isDigit c :=
  ⟨g.getLast group.2.1, List.getLast?_eq_some_getLast group.2.1, group.1 _ (List.getLast_mem group.2.1)⟩

theorem Group.absent (group : Group g) : '.' ∉ g := fun member => absurd (group.1 _ member) (by decide)

theorem Follows.dot (group : Group g) (rest : Follows t) : Follows (g ++ '.' :: t) := by
  intro front back whole
  rcases List.append_eq_append_iff.mp whole with ⟨mid, rfl, tail⟩ | ⟨mid, rfl, tail⟩
  · cases mid with
    | nil =>
      rw [List.append_nil]
      exact group.last
    | cons x mid =>
      obtain ⟨c, last, digit⟩ := rest mid back (List.cons.inj tail).2
      refine ⟨c, ?_, digit⟩
      rw [List.getLast?_append, List.getLast?_cons, last]
      rfl
  · cases mid with
    | nil =>
      rw [List.append_nil] at group
      exact group.last
    | cons x mid =>
      obtain ⟨rfl, -⟩ := List.cons.inj tail
      exact absurd (List.mem_append.mpr (.inr (List.mem_cons_self ..))) group.absent

theorem Quad.follows (quad : Quad t) : Follows t := by
  obtain ⟨first, second, third, fourth⟩ := quad
  exact .dot first (.dot second (.dot third (.of_notMem fourth.absent)))

theorem readSeparator_follows (takes : Takes reader Follows) (first : Bool) :
    Takes (readSeparator ':' first reader) Follows := by
  intro t a rest read
  obtain ⟨g, whole, holds⟩ := readSeparator_takes takes ':' first t a rest read
  refine ⟨g, whole, ?_⟩
  split at holds
  · exact holds
  · obtain ⟨g, rfl, holds⟩ := holds
    exact .append (g := [':']) (.of_notMem (by decide)) holds

theorem readNumber_follows : Takes (readNumber 16 4 true 65536) Follows := by
  intro t n rest read
  obtain ⟨g, whole, digits, -⟩ := readNumber_takes _ _ _ _ _ _ _ read
  exact ⟨g, whole, .of_notMem fun dot => absurd (digits _ dot) (by decide)⟩

theorem readGroups_follows (first : Bool) (limit : ℕ) (t : Text) :
    ∃ g, t = g ++ (readGroups first limit t).2.2 ∧ Follows g := by
  have nothing : ∀ t : Text, ∃ g, t = g ++ t ∧ Follows g := fun t => ⟨[], rfl, .of_notMem List.not_mem_nil⟩
  induction limit generalizing first t with
  | zero => exact nothing t
  | succ limit ih =>
    rw [readGroups]
    split
    · next embedded =>
      split at embedded
      · exact readSeparator_follows (fun t ip rest read => by
          obtain ⟨g, whole, quad⟩ := readIpv4_takes t ip rest read
          exact ⟨g, whole, quad.follows⟩) first _ _ _ embedded
      · contradiction
    · split
      · exact nothing t
      · next n rest read =>
        obtain ⟨g, rfl, follows⟩ := readSeparator_follows readNumber_follows first _ _ _ read
        obtain ⟨tail, whole, later⟩ := ih false rest
        refine ⟨g ++ tail, ?_, follows.append later⟩
        rw [List.append_assoc, ← whole]

/-- In what reads as an IPv6 address, every dot follows a digit. -/
theorem parseIpv6_follows {ip : IpAddr} (parsed : parseIpv6 t = some ip) : Follows t := by
  refine Takes.whole ?_ parsed
  intro t ip rest read
  obtain ⟨g, whole, follows⟩ := readGroups_follows true 8 t
  unfold readIpv6 at read
  generalize readGroups true 8 t = groups at read whole
  obtain ⟨head, embedded, middle⟩ := groups
  dsimp only at read whole
  split at read
  · obtain ⟨_, -, same⟩ := Option.map_eq_some_iff.mp read
    exact ⟨g, by rw [← (Prod.mk.inj same).2]; exact whole, follows⟩
  · split at read
    · contradiction
    · split at read
      · next after =>
        obtain ⟨_, -, same⟩ := Option.map_eq_some_iff.mp read
        obtain ⟨tail, parts, later⟩ := readGroups_follows true (8 - (head.length + 1)) after
        refine ⟨g ++ ([':', ':'] ++ tail), ?_, follows.append (.append (.of_notMem (by decide)) later)⟩
        rw [← (Prod.mk.inj same).2, whole, List.append_assoc, List.append_assoc, ← parts]
        rfl
      · contradiction

end StreamDelay.Foundations.IpText
