import StreamDelay.Control.Diagnostics

/-! # Where addresses are found -/

namespace StreamDelay.Control.Diagnostics

open Foundations Text IpText Marked

variable {p : Process} {before : Option Char} {b q g front back tail : Text} {i part len : ℕ} {ip : IpAddr}

/-! ## Dotted quads -/

private theorem digitAt_zero (c : Char) (rest : Text) : digitAt (c :: rest) 0 = isDigit c := rfl

theorem digitAt_drop (b : Text) (i j : ℕ) : digitAt (b.drop i) j = digitAt b (i + j) := by
  rw [digitAt, digitAt, List.getElem?_drop]

private theorem takeWhile_of_not_digit (stops : digitAt tail 0 = false) (n : ℕ) :
    (tail.take n).takeWhile isDigit = [] := by
  cases tail with
  | nil => rw [List.take_nil, List.takeWhile_nil]
  | cons c tail =>
    cases n with
    | zero => rfl
    | succ n => exact List.takeWhile_cons_of_neg (by rw [← digitAt_zero c tail, stops]; exact Bool.false_ne_true)

/-- The digits of a group are all counted, and no more. -/
theorem takeWhile_group (group : Group g) (stops : digitAt tail 0 = false) :
    ((g ++ tail).take 3).takeWhile isDigit = g := by
  rw [List.take_append, List.take_of_length_le group.2.2, List.takeWhile_append_of_pos fun c member => group.1 c member,
    takeWhile_of_not_digit stops, List.append_nil]

theorem group_length (group : Group g) : g.length ≠ 0 := fun none => group.2.1 (List.length_eq_zero_iff.mp none)

private theorem quadPart_first (group : Group g) (stops : digitAt tail 0 = false) :
    quadPart (g ++ tail) 0 0 = some g.length := by
  rw [quadPart, if_neg fun positive => absurd positive.1 (Nat.lt_irrefl 0)]
  dsimp only
  rw [if_neg (Nat.lt_irrefl 0), List.drop_zero, takeWhile_group group stops, if_neg (group_length group), Nat.zero_add]

theorem quadPart_next (positive : 0 < part) (group : Group g) (stops : digitAt tail 0 = false) :
    quadPart (front ++ '.' :: (g ++ tail)) front.length part = some (front.length + 1 + g.length) := by
  have dot : (front ++ '.' :: (g ++ tail))[front.length]? = some '.' := by
    rw [List.getElem?_append_right (Nat.le_refl _), Nat.sub_self]
    rfl
  have after : (front ++ '.' :: (g ++ tail)).drop (front.length + 1) = g ++ tail := by
    rw [List.drop_append, List.drop_of_length_le (Nat.le_succ _), Nat.add_sub_cancel_left]
    rfl
  rw [quadPart, if_neg fun wrong => wrong.2 dot]
  dsimp only
  rw [if_pos positive, after, takeWhile_group group stops, if_neg (group_length group)]

private theorem dottedQuad_quad (quad : Quad q) (stops : digitAt back 0 = false) :
    dottedQuad (q ++ back) = some q.length := by
  obtain @⟨a, b, c, d, first, second, third, fourth⟩ := quad
  have one : quadPart (a ++ '.' :: (b ++ '.' :: (c ++ '.' :: d)) ++ back) 0 0 = some a.length := by
    rw [List.append_assoc]
    exact quadPart_first first rfl
  have two : quadPart (a ++ '.' :: (b ++ '.' :: (c ++ '.' :: d)) ++ back) a.length 1 =
      some (a.length + 1 + b.length) := by
    rw [List.append_assoc, List.cons_append, List.append_assoc]
    exact quadPart_next Nat.one_pos second rfl
  have three : quadPart (a ++ '.' :: (b ++ '.' :: (c ++ '.' :: d)) ++ back) (a.length + 1 + b.length) 2 =
      some (a.length + 1 + b.length + 1 + c.length) := by
    have whole : a ++ '.' :: (b ++ '.' :: (c ++ '.' :: d)) ++ back =
        (a ++ '.' :: b) ++ '.' :: (c ++ ('.' :: d ++ back)) := by
      simp only [List.append_assoc, List.cons_append]
    have length : a.length + 1 + b.length = (a ++ '.' :: b).length := by
      rw [List.length_append, List.length_cons]
      omega
    rw [whole, length]
    exact quadPart_next Nat.two_pos third rfl
  have four : quadPart (a ++ '.' :: (b ++ '.' :: (c ++ '.' :: d)) ++ back) (a.length + 1 + b.length + 1 + c.length) 3 =
      some (a.length + 1 + b.length + 1 + c.length + 1 + d.length) := by
    have whole : a ++ '.' :: (b ++ '.' :: (c ++ '.' :: d)) ++ back =
        (a ++ '.' :: (b ++ '.' :: c)) ++ '.' :: (d ++ back) := by
      simp only [List.append_assoc, List.cons_append]
    have length : a.length + 1 + b.length + 1 + c.length = (a ++ '.' :: (b ++ '.' :: c)).length := by
      simp only [List.length_append, List.length_cons]
      omega
    rw [whole, length]
    exact quadPart_next (by decide) fourth stops
  rw [dottedQuad, List.foldlM_cons, one, Option.bind_eq_bind, Option.bind_some, List.foldlM_cons, two,
    Option.bind_eq_bind, Option.bind_some, List.foldlM_cons, three, Option.bind_eq_bind, Option.bind_some,
    List.foldlM_cons, four, Option.bind_eq_bind, Option.bind_some]
  refine congrArg some ?_
  simp only [List.length_append, List.length_cons]
  omega

private theorem quadPart_le {j : ℕ} (found : quadPart b i part = some j) : j ≤ b.length := by
  unfold quadPart at found
  split at found
  · contradiction
  · dsimp only at found
    generalize (if 0 < part then i + 1 else i) = start at found
    split at found
    · contradiction
    · obtain rfl := Option.some.inj found
      have short := (List.takeWhile_prefix isDigit (l := (b.drop start).take 3)).length_le
      rw [List.length_take, List.length_drop] at short
      omega

private theorem dottedQuad_le (found : dottedQuad b = some len) : len ≤ b.length := by
  rw [dottedQuad, List.foldlM_cons, Option.bind_eq_bind] at found
  obtain ⟨i, -, found⟩ := Option.bind_eq_some_iff.mp found
  rw [List.foldlM_cons, Option.bind_eq_bind] at found
  obtain ⟨j, -, found⟩ := Option.bind_eq_some_iff.mp found
  rw [List.foldlM_cons, Option.bind_eq_bind] at found
  obtain ⟨k, -, found⟩ := Option.bind_eq_some_iff.mp found
  rw [List.foldlM_cons, Option.bind_eq_bind] at found
  obtain ⟨l, last, found⟩ := Option.bind_eq_some_iff.mp found
  obtain rfl := Option.some.inj found
  exact quadPart_le last

/-! ## Public addresses -/

/-- No dotted number goes on. -/
def Stops (back : Text) : Prop := digitAt back 0 = false ∧ (back[0]? = some '.' → digitAt back 1 = false)

/-- A public address that is not part of a longer dotted number, as the code has it. -/
structure Found (before : Option Char) (q back : Text) (ip : IpAddr) : Prop where
  before : ∀ c ∈ before, isDigit c = false ∧ c ≠ '.'
  address : parseIpv4 q = some ip
  shown : isPublic ip
  stops : Stops back

private theorem digitAt_group (group : Group g) (tail : Text) : digitAt (g ++ tail) 0 := by
  obtain ⟨digits, some, -⟩ := group
  obtain ⟨c, rest, rfl⟩ := List.exists_cons_of_ne_nil some
  exact digits c (List.mem_cons_self ..)

theorem digitAt_quad (quad : Quad q) (back : Text) : digitAt (q ++ back) 0 := by
  obtain ⟨first, -, -, -⟩ := quad
  rw [List.append_assoc]
  exact digitAt_group first _

theorem any_digit_or_dot (before : Option Char) :
    (before.any fun c => isDigit c || c = '.') = false ↔ ∀ c ∈ before, isDigit c = false ∧ c ≠ '.' := by
  cases before with
  | none => exact ⟨fun _ c none => absurd none (Option.not_mem_none c), fun _ => rfl⟩
  | some c =>
    simp only [Option.any_some, Bool.or_eq_false_iff, decide_eq_false_iff_not, Option.mem_some_iff, forall_eq']

/-- Where the code finds an address, and which. -/
theorem v4At_iff :
    v4At before b = some (len, ip) ↔ ∃ q back, b = q ++ back ∧ len = q.length ∧ Found before q back ip := by
  constructor
  · intro found
    unfold v4At at found
    dsimp only at found
    split at found
    · next starts =>
      split at found
      · contradiction
      · next n quad =>
        split at found
        · contradiction
        · next address parsed =>
          split at found
          · next here =>
            obtain ⟨rfl, rfl⟩ := Prod.mk.inj (Option.some.inj found)
            simp only [Bool.and_eq_true, Bool.not_eq_true', Bool.or_eq_false_iff] at here starts
            refine ⟨b.take n, b.drop n, (List.take_append_drop ..).symm,
              (List.length_take_of_le (dottedQuad_le quad)).symm,
              (any_digit_or_dot before).mp starts.2, parsed, here.2, ?_, ?_⟩
            · rw [digitAt_drop]
              exact here.1.1
            · intro dot
              rw [List.getElem?_drop] at dot
              rw [digitAt_drop]
              exact (Bool.and_eq_false_imp.mp here.1.2) (decide_eq_true dot)
          · contradiction
    · contradiction
  · rintro ⟨q, back, rfl, rfl, found⟩
    have quad := parseIpv4_quad found.address
    have starts : (digitAt (q ++ back) 0 && !before.any fun c => isDigit c || c = '.') = true := by
      rw [digitAt_quad quad back, (any_digit_or_dot before).mpr found.before]
      rfl
    have digit : digitAt (q ++ back) q.length = false := by
      rw [← Nat.add_zero q.length, ← digitAt_drop, List.drop_left]
      exact found.stops.1
    have dotted : (decide ((q ++ back)[q.length]? = some '.') && digitAt (q ++ back) (q.length + 1)) = false := by
      rw [← digitAt_drop, List.drop_left, List.getElem?_append_right (Nat.le_refl _), Nat.sub_self]
      exact Bool.and_eq_false_imp.mpr fun dot => found.stops.2 (of_decide_eq_true dot)
    rw [v4At, if_pos starts, dottedQuad_quad quad found.stops.1]
    dsimp only
    rw [List.take_left, found.address]
    dsimp only
    rw [digit, dotted, found.shown]
    rfl

theorem quad_chars (quad : Quad q) {c : Char} (member : c ∈ q) : isDigit c ∨ c = '.' := by
  obtain ⟨first, second, third, fourth⟩ := quad
  simp only [List.mem_append, List.mem_cons] at member
  rcases member with inside | rfl | inside | rfl | inside | rfl | inside
  · exact .inl (first.1 c inside)
  · exact .inr rfl
  · exact .inl (second.1 c inside)
  · exact .inr rfl
  · exact .inl (third.1 c inside)
  · exact .inr rfl
  · exact .inl (fourth.1 c inside)

private theorem quad_dot (quad : Quad q) : '.' ∈ q := by
  obtain ⟨first, second, third, fourth⟩ := quad
  exact List.mem_append_right _ (List.mem_cons_self ..)

/-- A dotted quad ends in a digit. -/
theorem quad_last (quad : Quad q) : ∃ c ∈ q.getLast?, isDigit c := by
  obtain @⟨a, b, c, d, first, second, third, fourth⟩ := quad
  obtain ⟨x, last, digit⟩ := fourth.last
  refine ⟨x, ?_, digit⟩
  have whole : a ++ '.' :: (b ++ '.' :: (c ++ '.' :: d)) = (a ++ '.' :: (b ++ '.' :: (c ++ ['.']))) ++ d := by
    simp only [List.append_assoc, List.cons_append, List.nil_append]
  rw [whole, List.getLast?_append, last]
  rfl

theorem quad_first (quad : Quad q) : ∃ c rest, q = c :: rest ∧ isDigit c := by
  have digit := digitAt_quad quad []
  cases q with
  | nil => contradiction
  | cons c rest => exact ⟨c, rest, rfl, digit⟩

/-! ## IPv6 addresses -/

/-- A public IPv6 address in a stretch, from its start or a colon to its end. -/
structure V6 (t : Text) (start stop : ℕ) (ip : IpAddr) : Prop where
  before : start < stop
  within : stop ≤ t.length
  starts : start = 0 ∨ ∃ n, start = n + 1 ∧ t[n]? = some ':'
  ends : ∀ c ∈ t.drop stop, c = ':' ∨ c = '.'
  address : parseIpv6 ((t.take stop).drop start) = some ip
  shown : isPublic ip

theorem publicV6_some {t : Text} {start stop : ℕ} (found : publicV6 t = some (start, stop, ip)) :
    V6 t start stop ip := by
  unfold publicV6 at found
  split at found
  · contradiction
  · dsimp only at found
    split at found
    · contradiction
    · next start' ip' first =>
      split at found
      · next shown =>
        obtain ⟨rfl, parts⟩ := Prod.mk.inj (Option.some.inj found)
        obtain ⟨rfl, rfl⟩ := Prod.mk.inj parts
        obtain ⟨n, member, parsed⟩ := List.exists_of_findSome?_eq_some first
        obtain ⟨_, address, same⟩ := Option.map_eq_some_iff.mp parsed
        obtain ⟨rfl, rfl⟩ := Prod.mk.inj same
        obtain ⟨start, before⟩ := List.mem_filter.mp member
        refine ⟨of_decide_eq_true before, (List.rdropWhile_prefix _ _).length_le, ?_, ?_, address, shown⟩
        · rcases List.mem_cons.mp start with zero | later
          · exact .inl zero
          · obtain ⟨k, colon, rfl⟩ := List.mem_map.mp later
            exact .inr ⟨k, rfl, of_decide_eq_true (List.mem_filter.mp colon).2⟩
        · intro c member
          rw [drop_rdropWhile] at member
          simpa using List.mem_rtakeWhile_imp member
      · contradiction

/-! ## Stretches -/

section Stretches

variable {m a c run rest : Marked} {x : Mark}

theorem v4Edit_put {written : Marked} {n : ℕ} (found : v4Edit p before rest = some (written, n)) :
    ∃ ip, written = put (ipTag p ip) := by
  obtain ⟨⟨len, ip⟩, -, same⟩ := Option.map_eq_some_iff.mp found
  exact ⟨ip, (Prod.mk.inj same).1.symm⟩

theorem v4Edit_fresh (p : Process) : (v4Edit p).Fresh := by
  intro before rest written n found x member
  obtain ⟨ip, rfl⟩ := v4Edit_put found
  exact origin_put member

theorem v4Edit_some {written : Marked} (found : v4Edit p before rest = some (written, len)) :
    ∃ ip q back, text rest = q ++ back ∧ len = q.length ∧ Found before q back ip := by
  obtain ⟨⟨n, ip⟩, here, same⟩ := Option.map_eq_some_iff.mp found
  obtain ⟨-, rfl⟩ := Prod.mk.inj same
  exact ⟨ip, v4At_iff.mp here⟩

theorem v4Edit_of_found (found : Found before q back ip) (whole : text rest = q ++ back) :
    v4Edit p before rest = some (put (ipTag p ip), q.length) := by
  rw [v4Edit, v4At_iff.mpr ⟨q, back, whole, rfl, found⟩]
  rfl

theorem mem_maskV4 (member : x ∈ maskV4 p m) : x.origin = none ∨ x ∈ m := mem_rewrite (v4Edit_fresh p).drawn member

private theorem mem_maskRun (member : x ∈ maskRun p m) : x.origin = none ∨ x ∈ m := by
  unfold maskRun at member
  split at member
  · rcases List.mem_append.mp member with front | tail
    · rcases List.mem_append.mp front with head | tag
      · exact (mem_maskV4 head).imp_right List.mem_of_mem_take
      · exact .inl (origin_put tag)
    · exact (mem_maskV4 tail).imp_right List.mem_of_mem_drop
  · exact mem_maskV4 member

private theorem runEdit_drawn (p : Process) : (runEdit p).Drawn := by
  intro before rest written n found x member
  unfold runEdit at found
  dsimp only at found
  split at found
  · contradiction
  · obtain ⟨rfl, -⟩ := Prod.mk.inj (Option.some.inj found)
    exact (mem_maskRun member).imp_right fun inside => (List.takeWhile_prefix _).subset inside

theorem mem_maskPublicIps (member : x ∈ maskPublicIps p m) : x.origin = none ∨ x ∈ m :=
  mem_rewrite (runEdit_drawn p) member

theorem runEdit_ahead (p : Process) : (runEdit p).Ahead := fun _ _ _ => rfl

/-- Where a stretch ends. -/
def Over (rest : Marked) : Prop := ∀ x ∈ rest.head?, isIpChar x.char = false

/-- A stretch of hex digits, colons and dots. -/
def IsRun (run : Marked) : Prop := run ≠ [] ∧ ∀ x ∈ run, isIpChar x.char

private theorem takeWhile_run (chars : ∀ x ∈ run, isIpChar x.char) (past : Over rest) :
    (run ++ rest).takeWhile (fun x => isIpChar x.char) = run := by
  have none : rest.takeWhile (fun x => isIpChar x.char) = [] := by
    cases rest with
    | nil => rfl
    | cons x rest => exact List.takeWhile_cons_of_neg (by rw [past x rfl]; exact Bool.false_ne_true)
  rw [List.takeWhile_append_of_pos chars, none, List.append_nil]

theorem maskPublicIps_nil : maskPublicIps p [] = [] := rfl

theorem maskPublicIps_other (other : isIpChar x.char = false) :
    maskPublicIps p (x :: rest) = x :: maskPublicIps p rest := by
  have none : (x :: rest).takeWhile (fun x => isIpChar x.char) = [] :=
    List.takeWhile_cons_of_neg (by rw [other]; exact Bool.false_ne_true)
  rw [maskPublicIps, rewrite, runEdit, none]
  exact congrArg (x :: ·) (rewrite_ahead (runEdit_ahead p) ..)

theorem maskPublicIps_run (isRun : IsRun run) (past : Over rest) :
    maskPublicIps p (run ++ rest) = maskRun p run ++ maskPublicIps p rest := by
  have found : runEdit p none (run ++ rest) = some (maskRun p run, run.length) := by
    rw [runEdit, takeWhile_run isRun.2 past, if_neg isRun.1]
  rw [maskPublicIps, rewrite_hit isRun.1 found]
  exact congrArg _ (rewrite_ahead (runEdit_ahead p) ..)

/-- A text is read stretch by stretch. -/
theorem stretches {motive : Marked → Prop} (nil : motive [])
    (other : ∀ x rest, isIpChar x.char = false → motive rest → motive (x :: rest))
    (run : ∀ run rest, IsRun run → Over rest → motive rest → motive (run ++ rest)) (m : Marked) : motive m := by
  induction size : m.length using Nat.strong_induction_on generalizing m with
  | _ n ih =>
    cases m with
    | nil => exact nil
    | cons x rest =>
      cases kind : isIpChar x.char with
      | false => exact other x rest kind (ih rest.length (by rw [← size]; exact Nat.lt_succ_self _) rest rfl)
      | true =>
        have whole := List.takeWhile_append_dropWhile (p := fun x => isIpChar x.char) (l := x :: rest)
        have first : (x :: rest).takeWhile (fun x => isIpChar x.char) = x :: rest.takeWhile fun x => isIpChar x.char :=
          List.takeWhile_cons_of_pos kind
        rw [first, List.cons_append] at whole
        rw [← whole, ← List.cons_append]
        refine run _ _ ⟨List.cons_ne_nil _ _, ?_⟩ ?_ (ih _ ?_ _ rfl)
        · intro y member
          rw [← first] at member
          exact List.mem_takeWhile_imp (p := fun x : Mark => isIpChar x.char) member
        · intro y head
          have stopped := List.head?_dropWhile_not (fun x : Mark => isIpChar x.char) (x :: rest)
          rw [head] at stopped
          simpa using stopped
        · have same := congrArg List.length whole
          rw [List.length_cons, List.length_append, List.length_cons] at same
          rw [← size, List.length_cons]
          omega

/-- No stretch goes on from one text into the next. -/
def Parted (a b : Marked) : Prop := ∀ x ∈ a.getLast?, isIpChar x.char → Over b

private theorem parted_nil (b : Marked) : Parted [] b := fun x none => absurd none (Option.not_mem_none x)

theorem Over.append (past : Over a) (parted : Parted a c) (some : a ≠ []) : Over (a ++ c) := by
  obtain ⟨x, a, rfl⟩ := List.exists_cons_of_ne_nil some
  exact past

theorem Parted.right (parted : Parted (a ++ c) m) : Parted c m := by
  intro x last
  refine parted x ?_
  rw [List.getLast?_append, last]
  rfl

/-- Texts with no stretch in common are masked one by one. -/
theorem maskPublicIps_append (parted : Parted a c) :
    maskPublicIps p (a ++ c) = maskPublicIps p a ++ maskPublicIps p c := by
  revert parted
  refine stretches (motive := fun a => Parted a c → maskPublicIps p (a ++ c) = maskPublicIps p a ++ maskPublicIps p c)
    ?_ ?_ ?_ a
  · exact fun _ => rfl
  · intro x rest other ih parted
    have later : Parted rest c := by
      cases rest with
      | nil => exact parted_nil c
      | cons y rest => exact Parted.right (a := [x]) parted
    rw [List.cons_append, maskPublicIps_other other, maskPublicIps_other other, ih later]
    rfl
  · intro run rest isRun past ih parted
    cases rest with
    | nil =>
      have ends : Over c := by
        rw [List.append_nil] at parted
        exact parted _ (List.getLast?_eq_some_getLast isRun.1) (isRun.2 _ (List.getLast_mem isRun.1))
      rw [maskPublicIps_run isRun past, List.append_nil, maskPublicIps_run isRun ends, maskPublicIps_nil,
        List.append_nil]
    | cons y rest =>
      have later := Parted.right parted
      rw [List.append_assoc, maskPublicIps_run isRun (past.append later (List.cons_ne_nil _ _)), ih later,
        maskPublicIps_run isRun past, List.append_assoc]

theorem maskPublicIps_isRun (isRun : IsRun run) : maskPublicIps p run = maskRun p run := by
  have past : Over [] := fun x none => absurd none (Option.not_mem_none x)
  have alone := maskPublicIps_run (p := p) isRun past
  rwa [List.append_nil, maskPublicIps_nil, List.append_nil] at alone

/-- A stretch in its text. -/
structure Stretch (m front run back : Marked) : Prop where
  whole : m = front ++ (run ++ back)
  isRun : IsRun run
  starts : ∀ x ∈ front.getLast?, isIpChar x.char = false
  past : Over back

theorem Stretch.mask {front back : Marked} (stretch : Stretch m front run back) :
    maskPublicIps p m = maskPublicIps p front ++ (maskRun p run ++ maskPublicIps p back) := by
  have parted : Parted front (run ++ back) := fun x last char => by
    rw [stretch.starts x last] at char
    contradiction
  rw [stretch.whole, maskPublicIps_append parted, maskPublicIps_run stretch.isRun stretch.past]

theorem Stretch.behind {front back : Marked} (stretch : Stretch rest front run back) (parted : Parted a rest) :
    Stretch (a ++ rest) (a ++ front) run back := by
  refine ⟨by rw [stretch.whole, List.append_assoc], stretch.isRun, ?_, stretch.past⟩
  intro x last
  cases front with
  | nil =>
    rw [List.append_nil] at last
    obtain ⟨y, tail, rfl⟩ := List.exists_cons_of_ne_nil stretch.isRun.1
    cases char : isIpChar x.char with
    | false => rfl
    | true =>
      have first := parted x last char y (by rw [stretch.whole]; rfl)
      rw [stretch.isRun.2 y (List.mem_cons_self ..)] at first
      contradiction
  | cons y front =>
    rw [List.getLast?_append_of_ne_nil _ (List.cons_ne_nil _ _)] at last
    exact stretch.starts x last

theorem parted_other {x : Mark} (other : isIpChar x.char = false) : Parted [x] rest := by
  intro y last char
  rw [List.getLast?_singleton, Option.mem_some_iff] at last
  rw [← last, other] at char
  contradiction

theorem parted_over (past : Over rest) : Parted a rest := fun _ _ _ => past

/-- A text is masked stretch by stretch. -/
theorem maskPublicIps_id (runs : ∀ front run back, Stretch m front run back → maskRun p run = run) :
    maskPublicIps p m = m := by
  revert runs
  refine stretches (motive := fun m => (∀ front run back, Stretch m front run back → maskRun p run = run) →
    maskPublicIps p m = m) ?_ ?_ ?_ m
  · exact fun _ => rfl
  · intro x rest other ih runs
    rw [maskPublicIps_other other, ih fun front run back stretch => runs _ _ _ (stretch.behind (parted_other other))]
  · intro run rest isRun past ih runs
    have first : Stretch (run ++ rest) [] run rest :=
      ⟨rfl, isRun, fun x none => absurd none (Option.not_mem_none x), past⟩
    rw [maskPublicIps_run isRun past, runs _ _ _ first,
      ih fun front run back stretch => runs _ _ _ (stretch.behind (parted_over past))]

/-! ## What holds no address -/

theorem maskV4_id (none : ∀ front x back, m = front ++ x :: back → ∀ q after ip, text (x :: back) = q ++ after →
    ¬Found (last .none front) q after ip) : maskV4 p m = m := by
  refine rewrite_id fun front x back whole => ?_
  rw [← Option.not_isSome_iff_eq_none, Option.isSome_iff_exists]
  rintro ⟨⟨written, n⟩, found⟩
  obtain ⟨ip, q, after, same, -, here⟩ := v4Edit_some found
  exact none front x back whole q after ip same here

/-- Without a dot, there is no IPv4 address. -/
theorem maskV4_dotless (absent : '.' ∉ text m) : maskV4 p m = m := by
  refine maskV4_id fun front x back whole q after ip same found => absent ?_
  rw [whole, text_append, same]
  exact List.mem_append_right _ (List.mem_append_left _ (quad_dot (parseIpv4_quad found.address)))

/-- Without a digit, there is no IPv4 address. -/
theorem maskV4_digitless (absent : ∀ c ∈ text m, isDigit c = false) : maskV4 p m = m := by
  refine maskV4_id fun front x back whole q after ip same found => ?_
  obtain ⟨c, rest, rfl, digit⟩ := quad_first (parseIpv4_quad found.address)
  have none := absent c (by
    rw [whole, text_append, same]
    exact List.mem_append_right _ (List.mem_cons_self ..))
  rw [digit] at none
  contradiction

theorem publicV6_colonless {t : Text} (absent : ':' ∉ t) : publicV6 t = none := by
  rw [publicV6, if_pos (.inr (by rw [List.count_eq_zero.mpr absent]; decide))]

/-- Colons and dots alone are no address. -/
theorem publicV6_marks {t : Text} (marks : ∀ c ∈ t, c = ':' ∨ c = '.') : publicV6 t = none := by
  have stop : (t.rdropWhile fun c => c = ':' || c = '.') = [] :=
    List.rdropWhile_eq_nil_iff.mpr fun c member => by simpa using marks c member
  have never : ∀ starts : List ℕ, starts.filter (fun start => decide (start < 0)) = [] := fun starts =>
    List.filter_eq_nil_iff.mpr fun start _ => by simp
  unfold publicV6
  split
  · rfl
  · dsimp only
    rw [stop, List.length_nil, never]
    rfl

theorem maskPublicIps_plain (colon : ':' ∉ text m) (dot : '.' ∉ text m) : maskPublicIps p m = m := by
  refine maskPublicIps_id fun front run back stretch => ?_
  have inside : ∀ {c}, c ∈ text run → c ∈ text m := fun member => by
    rw [stretch.whole, text_append, text_append]
    exact List.mem_append_right _ (List.mem_append_left _ member)
  rw [maskRun, publicV6_colonless fun member => colon (inside member)]
  exact maskV4_dotless fun member => dot (inside member)

end Stretches

end StreamDelay.Control.Diagnostics
