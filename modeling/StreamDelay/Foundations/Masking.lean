import Mathlib.Tactic.Common
import Mathlib.Data.List.Infix
import StreamDelay.Foundations.Rewrite

/-! # Replacing texts one after another

Each text of a list is replaced in what the ones before it have left. What is found as it stands can be told from the
given text: it is the first, in the order of the list and from the left, of the occurrences that overlap.
-/

namespace StreamDelay.Foundations.Masking

open Marked

section Stages

variable (list : List Text) (new t : Text)

/-- The `k`th of the list stands at `i`, and the character at `n` is a part of it. -/
def Stands (k i n : ℕ) : Prop := ∃ s ∈ list[k]?, s <+: t.drop i ∧ i ≤ n ∧ n < i + s.length

/-- What is left once the first `k` are replaced. -/
def after (k : ℕ) : Marked := (list.take k).foldl (fun out s => replace s new out) (given 0 t)

/-- The `k`th is found with characters of a placeholder, and takes the character at `n` with them. -/
def Joined (k n : ℕ) : Prop :=
  ∃ s ∈ list[k]?, ∃ f ∈ finds s 0 (after list new t k), (∃ x ∈ f, x.origin = none) ∧ Has f n

/-- The `k`th is found at `i` as it stands: none of its characters goes with a placeholder, and nothing that is found
before, of a text listed before or of the same at an earlier place, overlaps it. -/
def Hit (k i : ℕ) : Prop :=
  (∃ n, Stands list t k i n) ∧ ∀ n, Stands list t k i n → (∀ m ≤ k, ¬Joined list new t m n) ∧
    ∀ m j, (before : m < k ∨ m = k ∧ j < i) → Stands list t m j n → ¬Hit m j
termination_by (k, i)
decreasing_by
  rcases before with before | ⟨rfl, before⟩
  · exact Prod.Lex.left _ _ before
  · exact Prod.Lex.right _ before

/-- Every character of an occurrence is in one that is found as it stands, or is taken with a placeholder's. -/
def Covered : Prop :=
  ∀ k i n, Stands list t k i n → (∃ m, Joined list new t m n) ∨ ∃ m j, Stands list t m j n ∧ Hit list new t m j

end Stages

/-! ## What replacing leaves -/

/-- What is left of a text from `i` on. After characters that were put in, it goes on at a later place. -/
def Worn (t : Text) : (hole : Bool) → (i : ℕ) → Marked → Prop
  | hole, i, [] => hole = true ∨ i = t.length
  | hole, i, ⟨c, some n⟩ :: rest => (n = i ∨ hole = true ∧ i ≤ n) ∧ t[n]? = some c ∧ Worn t false (n + 1) rest
  | hole, i, ⟨_, none⟩ :: rest => Worn t true (if hole then i else i + 1) rest

variable {list : List Text} {t new s u : Text} {hole : Bool} {i j k l n : ℕ} {m front rest : Marked}

theorem worn_given (i : ℕ) (within : i ≤ t.length) : Worn t false i (given i (t.drop i)) := by
  induction left : t.length - i generalizing i with
  | zero =>
    rw [List.drop_eq_nil_of_le (by omega)]
    exact .inr (by omega)
  | succ left' ih =>
    have inside : i < t.length := by omega
    rw [List.drop_eq_getElem_cons inside]
    exact ⟨.inl rfl, List.getElem?_eq_getElem inside, ih (i + 1) inside (by omega)⟩

namespace Worn

theorem loosen (worn : Worn t hole i m) (before : j ≤ i) : Worn t true j m := by
  induction m generalizing hole i j with
  | nil => exact .inl rfl
  | cons x rest ih =>
    match x, worn with
    | ⟨c, some n⟩, ⟨place, same, later⟩ =>
      exact ⟨.inr ⟨rfl, by rcases place with rfl | ⟨-, low⟩ <;> omega⟩, same, later⟩
    | ⟨c, none⟩, later =>
      cases hole with
      | false => exact ih later (Nat.le_succ_of_le before)
      | true => exact ih later before

theorem past (worn : Worn t hole i (front ++ rest)) : Worn t true i rest := by
  induction front generalizing hole i with
  | nil => exact worn.loosen (Nat.le_refl i)
  | cons x front ih =>
    match x, worn with
    | ⟨c, some n⟩, ⟨place, _, later⟩ =>
      refine (ih later).loosen ?_
      rcases place with rfl | ⟨-, low⟩ <;> omega
    | ⟨c, none⟩, later =>
      cases hole with
      | false => exact (ih later).loosen (Nat.le_succ i)
      | true => exact ih later

/-- After a part that is not empty, one place at least is behind. -/
theorem past_some (worn : Worn t false i (front ++ rest)) (filled : front ≠ []) : Worn t true (i + 1) rest := by
  obtain ⟨x, front, rfl⟩ := List.exists_cons_of_ne_nil filled
  match x, worn with
  | ⟨c, some n⟩, ⟨place, _, later⟩ =>
    obtain rfl | ⟨no, -⟩ := place
    · exact past later
    · contradiction
  | ⟨c, none⟩, later => exact past later

theorem put_append (worn : Worn t true i m) (v : Text) : Worn t true i (put v ++ m) := by
  induction v with
  | nil => exact worn
  | cons c rest ih => exact ih

theorem put_some (worn : Worn t true (i + 1) m) (filled : new ≠ []) : Worn t false i (put new ++ m) := by
  obtain ⟨c, rest, rfl⟩ := List.exists_cons_of_ne_nil filled
  exact worn.put_append rest

theorem replace (filled : new ≠ []) (nonempty : s ≠ []) (worn : Worn t hole i m) : Worn t hole i (replace s new m) := by
  induction m using scan_induction nonempty generalizing hole i with
  | nil => exact worn
  | found front rest same ends ih =>
    subst same
    rw [replace_found ends]
    cases hole with
    | false => exact (ih (worn.past_some ends)).put_some filled
    | true => exact (ih worn.past).put_append new
  | pass x rest absent ih =>
    rw [replace_cons absent]
    match x, worn with
    | ⟨c, some n⟩, ⟨place, same, later⟩ => exact ⟨place, same, ih later⟩
    | ⟨c, none⟩, later => exact ih later

theorem low (worn : Worn t hole i m) (has : Has m n) : i ≤ n := by
  induction m generalizing hole i with
  | nil =>
    obtain ⟨_, member, _⟩ := has
    contradiction
  | cons x rest ih =>
    obtain ⟨y, member, origin⟩ := has
    match x, worn with
    | ⟨c, some p⟩, ⟨place, _, later⟩ =>
      have here : i ≤ p := by rcases place with rfl | ⟨-, low⟩ <;> omega
      rcases List.mem_cons.mp member with rfl | inside
      · exact Option.some.inj origin ▸ here
      · have := ih later ⟨y, inside, origin⟩
        omega
    | ⟨c, none⟩, later =>
      rcases List.mem_cons.mp member with rfl | inside
      · contradiction
      · have := ih later ⟨y, inside, origin⟩
        cases hole with
        | false => exact Nat.le_of_succ_le this
        | true => exact this

theorem ordered (worn : Worn t hole i m) : Ordered m := by
  induction m generalizing hole i with
  | nil => exact List.Pairwise.nil
  | cons x rest ih =>
    match x, worn with
    | ⟨c, some p⟩, ⟨_, _, later⟩ =>
      refine List.pairwise_cons.mpr ⟨fun y member n origin q origin' => ?_, ih later⟩
      obtain rfl := Option.some.inj origin
      exact later.low ⟨y, member, origin'⟩
    | ⟨c, none⟩, later => exact List.pairwise_cons.mpr ⟨fun _ _ _ origin => (nomatch origin), ih later⟩

/-- Given characters follow each other as in the text. -/
theorem stands (worn : Worn t false i (front ++ rest)) (plain : ∀ x ∈ front, x.origin ≠ none) :
    front = given i (text front) ∧ text front <+: t.drop i := by
  induction front generalizing i with
  | nil => exact ⟨rfl, List.nil_prefix⟩
  | cons x front ih =>
    match x, worn, plain with
    | ⟨c, none⟩, _, plain => exact absurd rfl (plain _ (List.mem_cons_self ..))
    | ⟨c, some n⟩, ⟨place, same, later⟩, plain =>
      obtain rfl | ⟨no, -⟩ := place
      · obtain ⟨back, stands⟩ := ih later fun x member => plain x (List.mem_cons_of_mem _ member)
        obtain ⟨inside, same⟩ := List.getElem?_eq_some_iff.mp same
        refine ⟨congrArg (_ :: ·) back, ?_⟩
        rw [List.drop_eq_getElem_cons inside, same]
        exact List.cons_prefix_cons.mpr ⟨rfl, stands⟩
      · contradiction

/-- From a given character on, its own place is the first. -/
theorem from_given {x : Mark} (worn : Worn t hole i (front ++ x :: rest)) (origin : x.origin = some n) :
    Worn t false n (x :: rest) := by
  have here := worn.past
  match x, origin, here with
  | ⟨c, some p⟩, origin, ⟨_, same, later⟩ =>
    obtain rfl := Option.some.inj origin
    exact ⟨.inl rfl, same, later⟩

/-- Where all characters of a part are left, they stand together. -/
theorem together (worn : Worn t false i m) (fits : s <+: t.drop i) (has : ∀ n, i ≤ n → n < i + s.length → Has m n) :
    ∃ back, m = given i s ++ back := by
  induction s generalizing i m with
  | nil => exact ⟨m, rfl⟩
  | cons c s ih =>
    rw [List.length_cons] at has
    obtain ⟨x, member, origin⟩ := has i (Nat.le_refl i) (by omega)
    cases m with
    | nil => contradiction
    | cons y rest =>
      match y, worn with
      | ⟨d, none⟩, later =>
        rcases List.mem_cons.mp member with rfl | inside
        · contradiction
        · exact absurd (low (m := rest) later ⟨x, inside, origin⟩) (Nat.not_succ_le_self i)
      | ⟨d, some p⟩, ⟨place, same, later⟩ =>
        obtain rfl | ⟨no, -⟩ := place
        · obtain ⟨inside, same⟩ := List.getElem?_eq_some_iff.mp same
          rw [List.drop_eq_getElem_cons inside, same] at fits
          obtain ⟨rfl, tail⟩ := List.cons_prefix_cons.mp fits
          obtain ⟨back, whole⟩ := ih later tail fun n low high => by
            obtain ⟨z, member, origin⟩ := has n (by omega) (by omega)
            rcases List.mem_cons.mp member with rfl | inside
            · obtain rfl := Option.some.inj origin
              omega
            · exact ⟨z, inside, origin⟩
          exact ⟨back, congrArg (_ :: ·) whole⟩
        · contradiction

/-- A part of the text whose characters are all left stands in what is left. -/
theorem intact (worn : Worn t hole j m) (nonempty : s ≠ []) (fits : s <+: t.drop i)
    (has : ∀ n, i ≤ n → n < i + s.length → Has m n) : ∃ front back, m = front ++ (given i s ++ back) := by
  have length := List.length_pos_iff.mpr nonempty
  obtain ⟨x, member, origin⟩ := has i (Nat.le_refl i) (by omega)
  obtain ⟨front, back, whole⟩ := List.append_of_mem member
  rw [whole] at worn has
  obtain ⟨rest, same⟩ := (worn.from_given origin).together fits fun n low high =>
    ((has_append _ _).mp (has n low high)).resolve_left fun ahead =>
      absurd (worn.ordered.lt ahead ⟨x, List.mem_cons_self .., origin⟩) (Nat.not_lt.mpr low)
  exact ⟨front, rest, by rw [whole, same]⟩

end Worn

/-! ## One stage -/

theorem after_succ (listed : s ∈ list[k]?) : after list new t (k + 1) = replace s new (after list new t k) := by
  obtain ⟨inside, rfl⟩ := List.getElem?_eq_some_iff.mp listed
  rw [after, after, ← List.take_concat_get' list k inside, List.foldl_append]
  rfl

theorem after_past (past : list[k]? = none) : after list new t (k + 1) = after list new t k := by
  have past := List.getElem?_eq_none_iff.mp past
  rw [after, after, List.take_of_length_le past, List.take_of_length_le (Nat.le_succ_of_le past)]

/-- The `k`th is found at `i` in what the ones before it have left. -/
def Found (list : List Text) (new t : Text) (k i : ℕ) : Prop :=
  ∃ s ∈ list[k]?, given i s ∈ finds s 0 (after list new t k)

section

variable (nonempty : ∀ s ∈ list, s ≠ []) (filled : new ≠ [])

include nonempty filled

theorem after_worn (k : ℕ) : Worn t false 0 (after list new t k) := by
  induction k with
  | zero => exact worn_given 0 (Nat.zero_le _)
  | succ k ih =>
    cases listed : list[k]? with
    | none =>
      rw [after_past listed]
      exact ih
    | some s =>
      rw [after_succ (Option.mem_def.mpr listed)]
      exact ih.replace filled (nonempty s (List.mem_of_getElem? listed))

theorem has_after_succ :
    Has (after list new t (k + 1)) n ↔
      Has (after list new t k) n ∧ ∀ s ∈ list[k]?, ∀ f ∈ finds s 0 (after list new t k), ¬Has f n := by
  cases listed : list[k]? with
  | none =>
    rw [after_past listed]
    exact ⟨fun has => ⟨has, fun _ no => (nomatch no)⟩, And.left⟩
  | some s =>
    rw [after_succ (Option.mem_def.mpr listed), has_replace (nonempty s (List.mem_of_getElem? listed))
      (after_worn nonempty filled k).ordered]
    simp only [Option.mem_def, Option.some.injEq, forall_eq']

/-- What is gone stays gone. -/
theorem has_earlier (before : j ≤ k) (has : Has (after list new t k) n) : Has (after list new t j) n := by
  induction k, before using Nat.le_induction with
  | base => exact has
  | succ k before ih => exact ih ((has_after_succ nonempty filled).mp has).1

/-- What is gone was taken. -/
theorem taken_before (inside : n < t.length) (gone : ¬Has (after list new t k) n) :
    ∃ m < k, ∃ s ∈ list[m]?, ∃ f ∈ finds s 0 (after list new t m), Has f n := by
  induction k with
  | zero => exact absurd (has_given.mpr ⟨Nat.zero_le n, (Nat.zero_add _).symm ▸ inside⟩) gone
  | succ k ih =>
    by_cases has : Has (after list new t k) n
    · by_contra none
      refine gone ((has_after_succ nonempty filled).mpr ⟨has, fun s listed f member taken => ?_⟩)
      exact none ⟨k, Nat.lt_succ_self k, s, listed, f, member, taken⟩
    · obtain ⟨m, before, rest⟩ := ih has
      exact ⟨m, Nat.lt_succ_of_lt before, rest⟩

/-- What is found without a placeholder's characters stands in the text. -/
theorem stands_of_found (listed : s ∈ list[k]?) {f : Marked} (member : f ∈ finds s 0 (after list new t k))
    (taken : Has f n)
    (plain : ¬Joined list new t k n) :
    ∃ i, f = given i s ∧ Found list new t k i ∧ ∀ n, Has f n → Stands list t k i n := by
  have given_ : ∀ x ∈ f, x.origin ≠ none := fun x inside origin =>
    plain ⟨s, listed, f, member, ⟨x, inside, origin⟩, taken⟩
  obtain ⟨same, before, back, whole⟩ := mem_finds (nonempty s (List.mem_of_getElem? listed)) member
  cases f with
  | nil =>
    obtain ⟨_, no, _⟩ := taken
    contradiction
  | cons x rest =>
    obtain ⟨i, origin⟩ := Option.ne_none_iff_exists'.mp (given_ x (List.mem_cons_self ..))
    have worn := after_worn (t := t) nonempty filled k
    rw [whole] at worn
    have worn : Worn t false i ((x :: rest) ++ back) := worn.from_given origin
    obtain ⟨as_given, stands⟩ := worn.stands given_
    rw [same] at as_given stands
    refine ⟨i, as_given, ⟨s, listed, as_given ▸ member⟩, fun n has => ⟨s, listed, stands, ?_⟩⟩
    rw [as_given] at has
    exact has_given.mp has

theorem stands_of_given (listed : s ∈ list[k]?) (member : given i s ∈ finds s 0 (after list new t k)) :
    s <+: t.drop i := by
  obtain ⟨c, tail, rfl⟩ := List.exists_cons_of_ne_nil (nonempty s (List.mem_of_getElem? listed))
  obtain ⟨-, before, back, whole⟩ := mem_finds (List.cons_ne_nil c tail) member
  have worn := after_worn (t := t) nonempty filled k
  rw [whole] at worn
  have worn : Worn t false i (given i (c :: tail) ++ back) := worn.from_given rfl
  obtain ⟨-, stands⟩ := worn.stands fun x inside => by
    obtain ⟨n, origin, -⟩ := mem_given inside
    rw [origin]
    exact Option.some_ne_none n
  rwa [text_given] at stands

/-- What is left was not found before. -/
theorem not_taken_before (left : Has (after list new t k) n) (before : j < k) (listed : s ∈ list[j]?) {f : Marked}
    (found : f ∈ finds s 0 (after list new t j)) : ¬Has f n :=
  ((has_after_succ nonempty filled).mp (has_earlier nonempty filled before left)).2 s listed f found

/-- Where an occurrence is intact, it is found, or its first character is taken from before. -/
theorem found_standing (listed : s ∈ list[k]?) (stands : s <+: t.drop i)
    (all : ∀ n, i ≤ n → n < i + s.length → Has (after list new t k) n) :
    Found list new t k i ∨ ∃ f ∈ finds s 0 (after list new t k), Has f i ∧ ∀ j, f = given j s → j < i := by
  have some := nonempty s (List.mem_of_getElem? listed)
  have worn := after_worn (t := t) nonempty filled k
  obtain ⟨front, back, whole⟩ := worn.intact some stands all
  rw [whole] at worn
  rcases finds_standing some (text_given i s) front back whole with found | ⟨a, b, first, second, ends, starts, found⟩
  · exact .inl ⟨s, listed, found⟩
  · obtain ⟨c, tail, rfl⟩ := List.exists_cons_of_ne_nil some
    obtain ⟨x, into, rfl⟩ := List.exists_cons_of_ne_nil second
    obtain ⟨y, a, rfl⟩ := List.exists_cons_of_ne_nil first
    obtain ⟨rfl, -⟩ := List.cons_prefix_cons.mp starts
    refine .inr ⟨_, found, (has_append _ _).mpr (.inr ⟨_, List.mem_cons_self .., rfl⟩), fun j same => ?_⟩
    obtain ⟨rfl, -⟩ := List.cons.inj same
    exact worn.ordered.lt ⟨_, ends.subset (List.mem_cons_self ..), rfl⟩ ⟨_, List.mem_cons_self .., rfl⟩

variable (before : ∀ m j, m < k ∨ m = k ∧ j < i → (Hit list new t m j ↔ Found list new t m j))

include before

private theorem found_of_hit (hit : Hit list new t k i) : Found list new t k i := by
  rw [Hit] at hit
  obtain ⟨⟨n, s, listed, stands, low, high⟩, free⟩ := hit
  have fits := stands.length_le
  rw [List.length_drop] at fits
  -- Nothing found before has taken a character of the occurrence.
  have all : ∀ n, i ≤ n → n < i + s.length → Has (after list new t k) n := by
    intro n low high
    by_contra gone
    obtain ⟨joined, hits⟩ := free n ⟨s, listed, stands, low, high⟩
    obtain ⟨m, lower, u, other, f, member, taken⟩ := taken_before nonempty filled (by omega) gone
    obtain ⟨j, -, found, parts⟩ := stands_of_found nonempty filled other member taken (joined m (Nat.le_of_lt lower))
    exact hits m j (.inl lower) (parts n taken) ((before m j (.inl lower)).mpr found)
  rcases found_standing nonempty filled listed stands all with found | ⟨f, member, taken, earlier⟩
  · exact found
  · obtain ⟨joined, hits⟩ := free i ⟨s, listed, stands, Nat.le_refl i, by omega⟩
    obtain ⟨j, same, found, parts⟩ := stands_of_found nonempty filled listed member taken (joined k (Nat.le_refl k))
    have lower : k < k ∨ k = k ∧ j < i := .inr ⟨rfl, earlier j same⟩
    exact absurd ((before k j lower).mpr found) (hits k j lower (parts i taken))

private theorem hit_of_found (found : Found list new t k i) : Hit list new t k i := by
  obtain ⟨s, listed, member⟩ := found
  have some := nonempty s (List.mem_of_getElem? listed)
  have ordered := (after_worn (t := t) nonempty filled k).ordered
  have standing := stands_of_given nonempty filled listed member
  rw [Hit]
  refine ⟨⟨i, s, listed, standing, Nat.le_refl i, Nat.lt_add_of_pos_right (List.length_pos_iff.mpr some)⟩, ?_⟩
  rintro n ⟨s', listed', -, low, high⟩
  obtain rfl := Option.mem_unique listed listed'
  have has : Has (given i s) n := has_given.mpr ⟨low, high⟩
  have left := has.of_mem_finds some member
  constructor
  · rintro m upto ⟨u, other, f, found, ⟨x, inside, origin⟩, taken⟩
    rcases Nat.lt_or_eq_of_le upto with lower | rfl
    · exact not_taken_before nonempty filled left lower other found taken
    · obtain rfl := Option.mem_unique listed other
      obtain rfl := finds_disjoint some ordered member found has taken
      obtain ⟨p, given_, -⟩ := mem_given inside
      rw [given_] at origin
      contradiction
  · rintro m j earlier ⟨u, other, -, low', high'⟩ hit
    obtain ⟨u', other', found⟩ := (before m j earlier).mp hit
    obtain rfl := Option.mem_unique other other'
    have taken : Has (given j u) n := has_given.mpr ⟨low', high'⟩
    rcases earlier with lower | ⟨rfl, lower⟩
    · exact not_taken_before nonempty filled left lower other found taken
    · obtain rfl := Option.mem_unique listed other
      have same := finds_disjoint some ordered member found has taken
      have first : Has (given i s) j := by
        rw [same]
        exact has_given.mpr ⟨Nat.le_refl j, Nat.lt_add_of_pos_right (List.length_pos_iff.mpr some)⟩
      exact absurd (has_given.mp first).1 (Nat.not_le.mpr lower)

omit before

/-- What is found as it stands can be told from the given text. -/
theorem hit_iff (k i : ℕ) : Hit list new t k i ↔ Found list new t k i := by
  induction k using Nat.strong_induction_on generalizing i with
  | _ k earlier =>
    induction i using Nat.strong_induction_on with
    | _ i left =>
      have before : ∀ m j, m < k ∨ m = k ∧ j < i → (Hit list new t m j ↔ Found list new t m j) := by
        rintro m j (lower | ⟨rfl, lower⟩)
        · exact earlier m lower j
        · exact left j lower
      exact ⟨found_of_hit nonempty filled before, hit_of_found nonempty filled before⟩

/-- The occurrences are covered if and only if no character of one is left. -/
theorem covered_iff :
    Covered list new t ↔ ∀ k i n, Stands list t k i n → ¬Has (after list new t list.length) n := by
  constructor
  · rintro covered k i n stands left
    rcases covered k i n stands with ⟨m, s, listed, f, found, -, taken⟩ | ⟨m, j, ⟨s, listed, -, low, high⟩, hit⟩
    · exact not_taken_before nonempty filled left (List.getElem?_eq_some_iff.mp listed).1 listed found taken
    · obtain ⟨s', listed', found⟩ := (hit_iff nonempty filled m j).mp hit
      obtain rfl := Option.mem_unique listed listed'
      exact not_taken_before nonempty filled left (List.getElem?_eq_some_iff.mp listed).1 listed found
        (has_given.mpr ⟨low, high⟩)
  · intro gone k i n stands
    by_cases joined : ∃ m, Joined list new t m n
    · exact .inl joined
    · have inside : n < t.length := by
        obtain ⟨s, -, stands, low, high⟩ := stands
        have := stands.length_le
        rw [List.length_drop] at this
        omega
      obtain ⟨m, -, s, listed, f, member, taken⟩ := taken_before nonempty filled inside (gone k i n stands)
      obtain ⟨j, -, found, parts⟩ := stands_of_found nonempty filled listed member taken fun here => joined ⟨m, here⟩
      exact .inr ⟨m, j, parts n taken, (hit_iff nonempty filled m j).mpr found⟩

end

end StreamDelay.Foundations.Masking
