import Mathlib.Tactic.Common
import StreamDelay.Foundations.Text

/-! # Rewriting texts whose characters know where they come from

A text is read from the left, and parts of it are written anew. A character that was not put in keeps its place in the
text it was given with.
-/

namespace StreamDelay.Foundations

/-- A character, and its place in the given text unless it was put in. -/
structure Mark where
  char : Char
  origin : Option ℕ
deriving DecidableEq, Repr

abbrev Marked := List Mark

namespace Marked

def text (m : Marked) : Text := m.map Mark.char

def put (t : Text) : Marked := t.map fun c => ⟨c, none⟩

/-- A given text, or its part from a place on. -/
def given (i : ℕ) : Text → Marked
  | [] => []
  | c :: rest => ⟨c, some i⟩ :: given (i + 1) rest

/-- What is written in place of how many characters, given the one before them. -/
abbrev Edit := Option Char → Marked → Option (Marked × ℕ)

/-- Rewrites a text from the left, after leaving out the first `skip` characters. -/
def rewrite (edit : Edit) : (skip : ℕ) → (before : Option Char) → Marked → Marked
  | _, _, [] => []
  | skip + 1, _, x :: rest => rewrite edit skip (some x.char) rest
  | 0, before, x :: rest =>
    match edit before (x :: rest) with
    | some (written, n) => written ++ rewrite edit (n - 1) (some x.char) rest
    | none => x :: rewrite edit 0 (some x.char) rest

def replaceEdit (old new : Text) : Edit := fun _ rest =>
  if old <+: rest.text then some (put new, old.length) else none

/-- `str::replace`, of a text that is not empty. -/
def replace (old new : Text) (m : Marked) : Marked := rewrite (replaceEdit old new) 0 none m

/-- What `str::replace` writes over: found from the left, each after the end of the one before. -/
def finds (old : Text) : (skip : ℕ) → Marked → List Marked
  | _, [] => []
  | skip + 1, _ :: rest => finds old skip rest
  | 0, x :: rest =>
    if old <+: text (x :: rest) then (x :: rest).take old.length :: finds old (old.length - 1) rest
    else finds old 0 rest

variable {m written rest front : Marked} {t old new : Text} {edit : Edit} {before : Option Char} {skip i n : ℕ}

/-! ## Marks and texts -/

@[simp] theorem text_append (a b : Marked) : text (a ++ b) = text a ++ text b := List.map_append ..

@[simp] theorem length_text (m : Marked) : (text m).length = m.length := List.length_map ..

@[simp] theorem text_put (t : Text) : text (put t) = t := by
  rw [text, put, List.map_map]
  exact List.map_id t

@[simp] theorem text_given (i : ℕ) (t : Text) : text (given i t) = t := by
  induction t generalizing i with
  | nil => rfl
  | cons c rest ih => exact congrArg _ (ih (i + 1))

@[simp] theorem length_given (i : ℕ) (t : Text) : (given i t).length = t.length := by
  rw [← text_given i t, text, List.length_map, ← text, text_given]

theorem given_append (i : ℕ) (t u : Text) : given i (t ++ u) = given i t ++ given (i + t.length) u := by
  induction t generalizing i with
  | nil => rfl
  | cons c rest ih =>
    rw [List.cons_append, given, given, ih, List.length_cons, Nat.add_right_comm, Nat.add_assoc]
    rfl

theorem mem_given {x : Mark} (member : x ∈ given i t) : ∃ n, x.origin = some n ∧ i ≤ n ∧ n < i + t.length := by
  induction t generalizing i with
  | nil => contradiction
  | cons c rest ih =>
    rcases List.mem_cons.mp member with rfl | later
    · exact ⟨i, rfl, Nat.le_refl i, Nat.lt_add_of_pos_right (Nat.succ_pos _)⟩
    · obtain ⟨n, origin, low, high⟩ := ih later
      rw [List.length_cons]
      exact ⟨n, origin, by omega, by omega⟩

theorem origin_put {x : Mark} (member : x ∈ put t) : x.origin = none := by
  obtain ⟨c, -, rfl⟩ := List.mem_map.mp member
  rfl

/-! ## What a rewriting keeps -/

/-- What is written comes from the rest of the text, or is put in. -/
def Edit.Drawn (edit : Edit) : Prop :=
  ∀ before rest written n, edit before rest = some (written, n) → ∀ x ∈ written, x.origin = none ∨ x ∈ rest

theorem mem_rewrite (drawn : edit.Drawn) {x : Mark} (member : x ∈ rewrite edit skip before m) :
    x.origin = none ∨ x ∈ m := by
  induction m generalizing skip before with
  | nil => exact .inr member
  | cons y rest ih =>
    have later : ∀ {skip before}, x ∈ rewrite edit skip before rest → x.origin = none ∨ x ∈ y :: rest :=
      fun inside => (ih inside).imp_right (List.mem_cons_of_mem _)
    match skip, member with
    | skip + 1, member => exact later member
    | 0, member =>
      rw [rewrite] at member
      split at member
      · next written n found =>
        rcases List.mem_append.mp member with here | inside
        · exact drawn _ _ _ _ found x here
        · exact later inside
      · rcases List.mem_cons.mp member with here | inside
        · exact .inr (here ▸ List.mem_cons_self ..)
        · exact later inside

/-- The character before a part of a text. -/
def last (before : Option Char) (front : Marked) : Option Char := (front.getLast?.map Mark.char).or before

theorem last_none (m : Marked) : last none m = (text m).getLast? := by
  rw [last, Option.or_none, text, List.getLast?_map]

theorem last_cons (before : Option Char) (x : Mark) (front : Marked) :
    last before (x :: front) = last (some x.char) front := by
  cases front with
  | nil => rfl
  | cons y front =>
    rw [last, last, List.getLast?_cons_cons, List.getLast?_cons]
    rfl

/-- What is left out does not matter. -/
theorem rewrite_skip (m rest : Marked) :
    rewrite edit m.length before (m ++ rest) = rewrite edit 0 (last before m) rest := by
  induction m generalizing before with
  | nil => rfl
  | cons x m ih =>
    rw [last_cons]
    exact ih

/-- What is found is written over, and the rest is rewritten by itself. -/
theorem rewrite_hit (some_ : m ≠ []) (found : edit before (m ++ rest) = some (written, m.length)) :
    rewrite edit 0 before (m ++ rest) = written ++ rewrite edit 0 (last before m) rest := by
  obtain ⟨x, m, rfl⟩ := List.exists_cons_of_ne_nil some_
  rw [List.cons_append] at found ⊢
  rw [rewrite, found]
  dsimp only
  rw [List.length_cons, Nat.add_sub_cancel, rewrite_skip, last_cons]

/-- What was before does not matter. -/
def Edit.Ahead (edit : Edit) : Prop := ∀ before other rest, edit before rest = edit other rest

theorem rewrite_ahead (ahead : edit.Ahead) (before other : Option Char) (m : Marked) :
    rewrite edit skip before m = rewrite edit skip other m := by
  cases m with
  | nil => rw [rewrite.eq_def, rewrite.eq_def]
  | cons x rest =>
    cases skip with
    | zero => rw [rewrite, rewrite, ahead before other]
    | succ skip => rfl

/-- Nothing is written where nothing is found. -/
theorem rewrite_id (never : ∀ front x back, m = front ++ x :: back → edit (last before front) (x :: back) = none) :
    rewrite edit 0 before m = m := by
  induction m generalizing before with
  | nil => rfl
  | cons x rest ih =>
    have here : edit before (x :: rest) = none := never [] x rest rfl
    have later : rewrite edit 0 (some x.char) rest = rest := ih fun front y back whole => by
      rw [← last_cons before]
      exact never (x :: front) y back (by rw [whole]; rfl)
    rw [rewrite, here]
    exact congrArg (x :: ·) later

/-- What is found in a part ends in it. -/
def Ends (edit : Edit) (before : Option Char) (part rest : Marked) : Prop :=
  ∀ front x back, part = front ++ x :: back → ∀ written n,
    edit (last before front) (x :: back ++ rest) = some (written, n) → n ≤ (x :: back).length

theorem Ends.tail {x : Mark} (ends : Ends edit before (x :: m) rest) : Ends edit (some x.char) m rest := by
  intro front y back whole written n found
  rw [← last_cons before] at found
  exact ends (x :: front) y back (by rw [whole]; rfl) written n found

/-- What is written is put in. -/
def Edit.Fresh (edit : Edit) : Prop :=
  ∀ before rest written n, edit before rest = some (written, n) → ∀ x ∈ written, x.origin = none

theorem Edit.Fresh.drawn (fresh : edit.Fresh) : edit.Drawn := fun before rest written n found x member =>
  .inl (fresh before rest written n found x member)

/-- Where nothing reaches into the rest, the rest is rewritten by itself. -/
theorem rewrite_split (fresh : edit.Fresh) (within : skip ≤ m.length) (ends : Ends edit before m rest) :
    ∃ out, rewrite edit skip before (m ++ rest) = out ++ rewrite edit 0 (last before m) rest ∧
      ∀ x ∈ out, x.origin = none ∨ x ∈ m := by
  induction m generalizing skip before with
  | nil =>
    obtain rfl := Nat.le_zero.mp within
    exact ⟨[], rfl, fun x member => .inr member⟩
  | cons x m ih =>
    rw [last_cons, List.cons_append]
    have later : ∀ {out : Marked}, (∀ y ∈ out, y.origin = none ∨ y ∈ m) → ∀ y ∈ out, y.origin = none ∨ y ∈ x :: m :=
      fun drawn y member => (drawn y member).imp_right (List.mem_cons_of_mem _)
    match skip, within with
    | skip + 1, within =>
      obtain ⟨out, same, drawn⟩ := ih (Nat.le_of_succ_le_succ within) ends.tail
      exact ⟨out, same, later drawn⟩
    | 0, _ =>
      rw [rewrite]
      cases found : edit before (x :: (m ++ rest)) with
      | none =>
        obtain ⟨out, same, drawn⟩ := ih (Nat.zero_le _) ends.tail
        refine ⟨x :: out, congrArg (x :: ·) same, ?_⟩
        intro y member
        rcases List.mem_cons.mp member with here | inside
        · exact .inr (here ▸ List.mem_cons_self ..)
        · exact later drawn y inside
      | some hit =>
        obtain ⟨written, n⟩ := hit
        have short := ends [] x m rfl written n found
        have inside : n - 1 ≤ m.length := by
          rw [List.length_cons] at short
          omega
        obtain ⟨out, same, drawn⟩ := ih inside ends.tail
        refine ⟨written ++ out, ?_, ?_⟩
        · rw [List.append_assoc, ← same]
        · intro y member
          rcases List.mem_append.mp member with here | inside
          · exact .inl (fresh _ _ _ _ found y here)
          · exact later drawn y inside

/-! ## Edits that look at characters only -/

/-- What is written, and for how many characters, depends on the characters. -/
def Edit.Blind (edit : Edit) : Prop :=
  ∀ before m m', text m = text m' → (edit before m).map (fun (written, n) => (text written, n)) =
    (edit before m').map fun (written, n) => (text written, n)

theorem rewrite_text (blind : edit.Blind) {m' : Marked} (same : text m = text m') :
    text (rewrite edit skip before m) = text (rewrite edit skip before m') := by
  induction m generalizing m' skip before with
  | nil =>
    obtain rfl : m' = [] := List.map_eq_nil_iff.mp same.symm
    rfl
  | cons x rest ih =>
    cases m' with
    | nil => contradiction
    | cons x' rest' =>
      obtain ⟨char, tail⟩ := List.cons.inj same
      match skip with
      | skip + 1 =>
        rw [rewrite, rewrite, char]
        exact ih tail
      | 0 =>
        have here := blind before _ _ same
        rw [rewrite, rewrite, char]
        cases found : edit before (x :: rest) with
        | none =>
          rw [found] at here
          rw [Option.map_eq_none_iff.mp here.symm]
          exact congrArg₂ List.cons char (ih tail)
        | some hit =>
          rw [found] at here
          obtain ⟨hit', found', parts⟩ := Option.map_eq_some_iff.mp here.symm
          obtain ⟨written, length⟩ := Prod.mk.inj parts
          rw [found']
          dsimp only
          rw [text_append, text_append, written, length]
          exact congrArg _ (ih tail)

/-! ## What is left between -/

/-- The parts left before, between and after what is found. -/
def parts (edit : Edit) : (skip : ℕ) → (before : Option Char) → Marked → List Marked
  | _, _, [] => [[]]
  | skip + 1, _, x :: rest => parts edit skip (some x.char) rest
  | 0, before, x :: rest =>
    match edit before (x :: rest) with
    | some (_, n) => [] :: parts edit (n - 1) (some x.char) rest
    | none =>
      match parts edit 0 (some x.char) rest with
      | [] => [[x]]
      | part :: others => (x :: part) :: others

/-- The parts depend on what is found only. -/
theorem parts_congr {edit' : Edit} (same : ∀ before m, (edit before m).map Prod.snd = (edit' before m).map Prod.snd)
    (skip : ℕ) (before : Option Char) (m : Marked) : parts edit skip before m = parts edit' skip before m := by
  induction m generalizing skip before with
  | nil => rw [parts.eq_def, parts.eq_def]
  | cons x rest ih =>
    match skip with
    | skip + 1 => exact ih skip _
    | 0 =>
      have here := same before (x :: rest)
      rw [parts, parts]
      cases found : edit before (x :: rest) with
      | none =>
        rw [found] at here
        rw [Option.map_eq_none_iff.mp here.symm]
        dsimp only
        rw [ih]
      | some hit =>
        rw [found] at here
        obtain ⟨hit', found', length⟩ := Option.map_eq_some_iff.mp here.symm
        rw [found']
        dsimp only
        rw [ih, length]

/-- Parts of a text, with something written between them. -/
inductive Woven (written : Marked → Prop) : List Marked → Marked → Prop where
  | last (part : Marked) : Woven written [part] part
  | between (part : Marked) {between : Marked} {others : List Marked} {rest : Marked} (fits : written between)
      (later : Woven written others rest) : Woven written (part :: others) (part ++ (between ++ rest))

theorem Woven.cons {kind : Marked → Prop} {part : Marked} {others : List Marked} (woven : Woven kind (part :: others) m)
    (x : Mark) : Woven kind ((x :: part) :: others) (x :: m) := by
  cases woven with
  | last => exact .last _
  | between _ fits later => exact .between _ fits later

/-- A rewritten text is its parts with what is written between them. -/
theorem rewrite_woven {kind : Marked → Prop}
    (writes : ∀ before rest written n, edit before rest = some (written, n) → kind written)
    (skip : ℕ) (before : Option Char) (m : Marked) :
    Woven kind (parts edit skip before m) (rewrite edit skip before m) := by
  induction m generalizing skip before with
  | nil =>
    rw [parts.eq_def, rewrite.eq_def]
    exact .last []
  | cons x rest ih =>
    match skip with
    | skip + 1 => exact ih skip _
    | 0 =>
      rw [parts, rewrite]
      cases found : edit before (x :: rest) with
      | some hit => exact .between [] (writes _ _ _ _ found) (ih _ _)
      | none =>
        have later := ih 0 (some x.char)
        dsimp only
        cases list : parts edit 0 (some x.char) rest with
        | nil =>
          rw [list] at later
          cases later
        | cons part others =>
          rw [list] at later
          exact later.cons x

/-! ## Replacing -/

theorem replaceEdit_drawn (old new : Text) : (replaceEdit old new).Drawn := by
  intro before rest written n found x member
  rw [replaceEdit] at found
  split at found
  · obtain ⟨rfl, -⟩ := Prod.mk.inj (Option.some.inj found)
    exact .inl (origin_put member)
  · contradiction

theorem replaceEdit_ahead (old new : Text) : (replaceEdit old new).Ahead := fun _ _ _ => rfl

theorem mem_replace {x : Mark} (member : x ∈ replace old new m) : x.origin = none ∨ x ∈ m :=
  mem_rewrite (replaceEdit_drawn old new) member

theorem replace_cons {x : Mark} (absent : ¬old <+: text (x :: rest)) :
    replace old new (x :: rest) = x :: replace old new rest := by
  rw [replace, rewrite, replaceEdit, if_neg absent]
  exact congrArg (x :: ·) (rewrite_ahead (replaceEdit_ahead old new) ..)

theorem replace_found (some_ : m ≠ []) : replace m.text new (m ++ rest) = put new ++ replace m.text new rest := by
  have found : replaceEdit m.text new none (m ++ rest) = some (put new, m.length) := by
    rw [replaceEdit, if_pos, length_text]
    rw [text_append]
    exact List.prefix_append ..
  rw [replace, rewrite_hit some_ found]
  exact congrArg _ (rewrite_ahead (replaceEdit_ahead _ new) ..)

/-! ## What is found -/

theorem finds_cons {x : Mark} (absent : ¬old <+: text (x :: rest)) : finds old 0 (x :: rest) = finds old 0 rest := by
  rw [finds, if_neg absent]

theorem finds_skip (m rest : Marked) : finds old m.length (m ++ rest) = finds old 0 rest := by
  induction m with
  | nil => rfl
  | cons x m ih => exact ih

theorem finds_found (some_ : m ≠ []) : finds m.text 0 (m ++ rest) = m :: finds m.text 0 rest := by
  obtain ⟨x, m, rfl⟩ := List.exists_cons_of_ne_nil some_
  have here : text (x :: m) <+: text (x :: (m ++ rest)) := by
    rw [← List.cons_append, text_append]
    exact List.prefix_append ..
  have length : (text (x :: m)).length = m.length + 1 := length_text _
  rw [List.cons_append, finds, if_pos here, length, Nat.add_sub_cancel, finds_skip, ← List.cons_append,
    ← List.length_cons, List.take_left]

/-- The scan for a text: it is found, or a character is passed. -/
theorem scan_induction {motive : Marked → Prop} (some_ : old ≠ []) (nil : motive [])
    (found : ∀ front rest, text front = old → front ≠ [] → motive rest → motive (front ++ rest))
    (pass : ∀ x rest, ¬old <+: text (x :: rest) → motive rest → motive (x :: rest)) (m : Marked) : motive m := by
  induction length : m.length using Nat.strong_induction_on generalizing m with
  | _ size ih =>
    cases m with
    | nil => exact nil
    | cons x rest =>
      by_cases here : old <+: text (x :: rest)
      · have front : text ((x :: rest).take old.length) = old := by
          rw [text, List.map_take]
          exact (List.prefix_iff_eq_take.mp here).symm
        have filled : (x :: rest).take old.length ≠ [] := fun none => some_ (by rw [← front, none]; rfl)
        have shorter : ((x :: rest).drop old.length).length < size := by
          have := List.length_pos_iff.mpr some_
          rw [List.length_drop, length]
          rw [List.length_cons] at length
          omega
        rw [← List.take_append_drop old.length (x :: rest)]
        exact found _ _ front filled (ih _ shorter _ rfl)
      · exact pass x rest here (ih _ (by rw [List.length_cons] at length; omega) _ rfl)

theorem mem_finds (some_ : old ≠ []) {f : Marked} (member : f ∈ finds old 0 m) :
    text f = old ∧ ∃ front back, m = front ++ (f ++ back) := by
  induction m using scan_induction some_ with
  | nil => contradiction
  | found front rest same filled ih =>
    subst same
    rw [finds_found filled] at member
    rcases List.mem_cons.mp member with rfl | later
    · exact ⟨rfl, [], rest, rfl⟩
    · obtain ⟨same, before, back, whole⟩ := ih later
      exact ⟨same, front ++ before, back, by rw [whole, List.append_assoc]⟩
  | pass x rest absent ih =>
    rw [finds_cons absent] at member
    obtain ⟨same, before, back, whole⟩ := ih member
    exact ⟨same, x :: before, back, by rw [whole]; rfl⟩

/-- Where a text stands it is found, or something found from before reaches into it. -/
theorem finds_standing (some_ : old ≠ []) {w : Marked} (same : text w = old) (front back : Marked)
    (whole : m = front ++ (w ++ back)) :
    w ∈ finds old 0 m ∨ ∃ before into, before ≠ [] ∧ into ≠ [] ∧ before <:+ front ∧ into <+: w ++ back ∧
      before ++ into ∈ finds old 0 m := by
  induction m using scan_induction some_ generalizing front with
  | nil =>
    obtain ⟨-, none⟩ := List.append_eq_nil_iff.mp whole.symm
    exact absurd (by rw [← same, (List.append_eq_nil_iff.mp none).1]; rfl) some_
  | found f rest equal filled ih =>
    subst equal
    rw [finds_found filled]
    rcases List.append_eq_append_iff.mp whole with ⟨past, rfl, rest'⟩ | ⟨into, rfl, rest'⟩
    · rcases ih past rest' with here | ⟨before, into, some, reaches, ends, starts, member⟩
      · exact .inl (List.mem_cons_of_mem _ here)
      · exact .inr ⟨before, into, some, reaches, ends.trans (List.suffix_append ..), starts,
          List.mem_cons_of_mem _ member⟩
    · by_cases reaches : into = []
      · subst reaches
        rw [List.nil_append] at rest'
        rcases ih [] rest'.symm with here | ⟨before, into, some, -, ends, -, -⟩
        · exact .inl (List.mem_cons_of_mem _ here)
        · exact absurd (List.suffix_nil.mp ends) some
      · by_cases first : front = []
        · subst first
          have length : into.length = w.length := by
            rw [← length_text w, same, length_text]
            rfl
          obtain ⟨rfl, -⟩ := List.append_inj rest'.symm length
          exact .inl (List.mem_cons_self ..)
        · exact .inr ⟨front, into, first, reaches, List.suffix_rfl, ⟨rest, rest'.symm⟩, List.mem_cons_self ..⟩
  | pass x rest absent ih =>
    rw [finds_cons absent]
    cases front with
    | nil =>
      refine absurd ?_ absent
      rw [whole, List.nil_append, text_append, same]
      exact List.prefix_append ..
    | cons y front =>
      obtain ⟨rfl, rest'⟩ := List.cons.inj whole
      rcases ih front rest' with here | ⟨before, into, some, reaches, ends, starts, member⟩
      · exact .inl here
      · exact .inr ⟨before, into, some, reaches, ends.trans (List.suffix_cons ..), starts, member⟩

/-! ## What is left -/

/-- The character of the given text at `n` is left. -/
def Has (m : Marked) (n : ℕ) : Prop := ∃ x ∈ m, x.origin = some n

@[simp] theorem has_append (a b : Marked) : Has (a ++ b) n ↔ Has a n ∨ Has b n := by
  simp only [Has, List.mem_append, or_and_right, exists_or]

theorem Has.of_mem_finds {f : Marked} (some_ : old ≠ []) (member : f ∈ finds old 0 m) (has : Has f n) : Has m n := by
  obtain ⟨-, front, back, rfl⟩ := mem_finds some_ member
  rw [has_append, has_append]
  exact .inr (.inl has)

theorem not_has_put (t : Text) : ¬Has (put t) n := by
  rintro ⟨x, member, origin⟩
  rw [origin_put member] at origin
  contradiction

theorem has_given : Has (given i t) n ↔ i ≤ n ∧ n < i + t.length := by
  induction t generalizing i with
  | nil =>
    exact ⟨fun ⟨_, member, _⟩ => absurd member List.not_mem_nil,
      fun ⟨low, high⟩ => absurd low (Nat.not_le.mpr high)⟩
  | cons c rest ih =>
    have tail : Has (given i (c :: rest)) n ↔ i = n ∨ Has (given (i + 1) rest) n := by
      simp only [Has, given, List.mem_cons, or_and_right, exists_or, exists_eq_left, Option.some.injEq]
    rw [tail, ih, List.length_cons]
    omega

/-- The characters that are left stand in the order of their places. -/
def Ordered (m : Marked) : Prop :=
  m.Pairwise fun x y => ∀ n, x.origin = some n → ∀ p, y.origin = some p → n < p

theorem Ordered.lt {a b : Marked} {p : ℕ} (ordered : Ordered (a ++ b)) (left : Has a n) (right : Has b p) : n < p := by
  obtain ⟨x, member, origin⟩ := left
  obtain ⟨y, member', origin'⟩ := right
  exact (List.pairwise_append.mp ordered).2.2 x member y member' n origin p origin'

theorem Ordered.apart {a b : Marked} (ordered : Ordered (a ++ b)) (left : Has a n) : ¬Has b n := fun right =>
  Nat.lt_irrefl n (ordered.lt left right)

/-- A character is left unless it is found with others. -/
theorem has_replace (some_ : old ≠ []) (ordered : Ordered m) :
    Has (replace old new m) n ↔ Has m n ∧ ∀ f ∈ finds old 0 m, ¬Has f n := by
  induction m using scan_induction some_ with
  | nil => exact ⟨fun ⟨_, member, _⟩ => absurd member List.not_mem_nil, fun ⟨has, _⟩ => has⟩
  | found front rest same filled ih =>
    subst same
    have later := ih (List.pairwise_append.mp ordered).2.1
    rw [replace_found filled, finds_found filled, has_append, has_append, later, List.forall_mem_cons]
    constructor
    · rintro (placed | ⟨has, free⟩)
      · exact absurd placed (not_has_put new)
      · exact ⟨.inr has, fun here => ordered.apart here has, free⟩
    · rintro ⟨here | has, absent, free⟩
      · exact absurd here absent
      · exact .inr ⟨has, free⟩
  | pass x rest absent ih =>
    have later := ih (List.pairwise_cons.mp ordered).2
    have split : ∀ m : Marked, Has (x :: m) n ↔ Has [x] n ∨ Has m n := fun m => has_append [x] m
    rw [replace_cons absent, finds_cons absent, split, split rest, later]
    constructor
    · rintro (here | ⟨has, free⟩)
      · exact ⟨.inl here,
          fun f member inside => Ordered.apart (a := [x]) ordered here (inside.of_mem_finds some_ member)⟩
      · exact ⟨.inr has, free⟩
    · rintro ⟨here | has, free⟩
      · exact .inl here
      · exact .inr ⟨has, free⟩

/-- What is found does not overlap. -/
theorem finds_disjoint (some_ : old ≠ []) (ordered : Ordered m) {f g : Marked} (left : f ∈ finds old 0 m)
    (right : g ∈ finds old 0 m) (here : Has f n) (there : Has g n) : f = g := by
  induction m using scan_induction some_ with
  | nil => contradiction
  | found front rest same filled ih =>
    subst same
    have later : ∀ w ∈ finds front.text 0 rest, Has w n → ¬Has front n := fun w member has first =>
      ordered.apart first (has.of_mem_finds some_ member)
    rw [finds_found filled] at left right
    rcases List.mem_cons.mp left with rfl | left <;> rcases List.mem_cons.mp right with rfl | right
    · rfl
    · exact absurd here (later g right there)
    · exact absurd there (later f left here)
    · exact ih (List.pairwise_append.mp ordered).2.1 left right
  | pass x rest absent ih =>
    rw [finds_cons absent] at left right
    exact ih (List.pairwise_cons.mp ordered).2 left right

end Marked

end StreamDelay.Foundations
