import StreamDelay.Config.PrivateFile

/-! # A private file is never half replaced, and never readable by others

Whatever calls fail, however much of the data each write takes and wherever the program stops, the file replaced is the
old one or the new one, whole, also after a crash; and what is written is at no time in a file that others may read.
-/

namespace StreamDelay.Config

open Foundations Program

namespace Disk

variable {path other : String} {d d' start : Disk} {file : Option File}

private theorem put_files_self (path : String) (file : Option File) (d : Disk) : (d.put path file).files path = file :=
  Function.update_self ..

private theorem put_files_other (elsewhere : other ≠ path) : (d.put path file).files other = d.files other :=
  Function.update_of_ne elsewhere ..

theorem shift_files_self (path : String) (file : Option File) (d : Disk) : (d.shift path file).files path = file :=
  Function.update_self ..

theorem shift_files_other (elsewhere : other ≠ path) : (d.shift path file).files other = d.files other :=
  Function.update_of_ne elsewhere ..

private theorem shift_stale_self (path : String) (file : Option File) (d : Disk) :
    (d.shift path file).stale path = d.files path :: d.stale path := Function.update_self ..

private theorem shift_stale_other (elsewhere : other ≠ path) : (d.shift path file).stale other = d.stale other :=
  Function.update_of_ne elsewhere ..

/-! ## Writing next to it -/

/-- Since `start` only the file at `path` has changed, and others may read it only as it was, or empty. -/
structure Beside (path : String) (start d : Disk) : Prop where
  files : ∀ other, other ≠ path → d.files other = start.files other
  stale : ∀ other, other ≠ path → d.stale other = start.stale other
  own : ∀ f, d.files path = some f → f.shared = true → start.files path = some f ∨ f.content = []

theorem Beside.refl (path : String) (d : Disk) : Beside path d d :=
  ⟨fun _ _ => rfl, fun _ _ => rfl, fun _ here _ => .inl here⟩

theorem Beside.put (beside : Beside path start d) {f : File} (fits : f.shared = true → f.content = []) :
    Beside path start (d.put path (some f)) where
  files := fun other elsewhere => (put_files_other elsewhere).trans (beside.files other elsewhere)
  stale := beside.stale
  own := by
    intro g here shared
    obtain rfl : f = g := Option.some.inj ((put_files_self path (some f) d).symm.trans here)
    exact .inr (fits shared)

/-- The same, and `P` of what a call that did not fail gives. -/
def Good {α : Type} (path : String) (start : Disk) (P : α → Disk → Prop) (answer : Except String α) (d : Disk) : Prop :=
  Beside path start d ∧ ∀ a, answer = .ok a → P a d

private theorem attempt_good {α : Type} {P : α → Disk → Prop} {answer : Except String α} {done : α → Prop}
    (beside : Beside path start d) (served : Attempt d d' answer done)
    (success : ∀ a, done a → Beside path start d' ∧ P a d') : Good path start P answer d' := by
  cases answer with
  | ok a => exact ⟨(success a served).1, fun b same => Except.ok.inj same ▸ (success a served).2⟩
  | error e =>
    obtain rfl : d' = d := served
    exact ⟨beside, fun a same => by contradiction⟩

private theorem orFail_good {α β : Type} {P : α → Disk → Prop} {R : β → Disk → Prop} {p : OnDisk α} {k : α → OnDisk β}
    (first : p.Always serve (Beside path start) (Good path start P) d)
    (rest : ∀ a d', Beside path start d' → P a d' → (k a).Always serve (Beside path start) (Good path start R) d') :
    (p.orFail k).Always serve (Beside path start) (Good path start R) d :=
  always_orFail first (fun _ _ good => good.1) (fun a d' good => rest a d' good.1 (good.2 a rfl))
    fun _ _ good => ⟨good.1, fun _ same => by contradiction⟩

/-- The file at `path` is there, and holds `content` that only the current user can read. -/
def Private (path : String) (content : Content) (d : Disk) : Prop :=
  ∃ durable, d.files path = some ⟨content, false, durable⟩

private theorem openFile_good (beside : Beside path start d) : (OnDisk.openFile path).Always serve (Beside path start)
    (Good path start fun _ d => (d.files path).isSome = true) d := by
  refine always_perform beside fun d' answer served => ?_
  have good := attempt_good (P := fun _ d => (d.files path).isSome = true) beside served fun _ done => ?_
  · exact ⟨good.1, good⟩
  · rcases done with ⟨there, rfl⟩ | ⟨-, shared, rfl⟩
    · exact ⟨beside, there⟩
    · refine ⟨beside.put fun _ => rfl, ?_⟩
      rw [put_files_self]
      rfl

/-- A call that changes the file at `path`, which is for the current user only from then on. -/
theorem changed_good {α : Type} {P : α → Disk → Prop} {answer : Except String α} {done : α → Prop}
    (beside : Beside path start d) (served : Attempt d d' answer done)
    (means : ∀ a, done a → ∃ f : File, f.shared = false ∧ d' = d.put path (some f) ∧ P a d') :
    Beside path start d' ∧ Good path start P answer d' := by
  have good := attempt_good (P := P) beside served fun a success => ?_
  · exact ⟨good.1, good⟩
  · obtain ⟨f, hidden, same, gives⟩ := means a success
    refine ⟨?_, gives⟩
    rw [same]
    refine beside.put fun shared => ?_
    rw [hidden] at shared
    contradiction

private theorem restrict_good (beside : Beside path start d) : (OnDisk.restrict path).Always serve (Beside path start)
    (Good path start fun _ d => ∃ content, Private path content d) d := by
  refine always_perform beside fun d' answer served => changed_good beside served ?_
  rintro - ⟨f, here, rfl⟩
  exact ⟨_, rfl, rfl, f.content, f.durable, put_files_self ..⟩

private theorem setEmpty_good (beside : Beside path start d) (restricted : ∃ content, Private path content d) :
    (OnDisk.setEmpty path).Always serve (Beside path start) (Good path start fun _ d => Private path [] d) d := by
  refine always_perform beside fun d' answer served => changed_good beside served ?_
  rintro - ⟨f, here, rfl⟩
  obtain ⟨content, durable, own⟩ := restricted
  obtain rfl := Option.some.inj (here.symm.trans own)
  exact ⟨_, rfl, rfl, false, put_files_self ..⟩

private theorem write_good {content : Content} (data : Content) (beside : Beside path start d)
    (held : Private path content d) :
    (OnDisk.write path data).Always serve (Beside path start)
      (Good path start fun n d => Private path (content ++ data.take n) d) d := by
  refine always_perform beside fun d' answer served => changed_good beside served ?_
  rintro n ⟨-, f, here, rfl⟩
  obtain ⟨durable, own⟩ := held
  obtain rfl := Option.some.inj (here.symm.trans own)
  exact ⟨_, rfl, rfl, false, put_files_self ..⟩

private theorem writeAll_good {content : Content} (data : Content) (beside : Beside path start d)
    (held : Private path content d) : (OnDisk.writeAll path data).Always serve (Beside path start)
    (Good path start fun _ d => Private path (content ++ data) d) d := by
  induction data using OnDisk.writeAll.induct generalizing content d with
  | case1 =>
    rw [OnDisk.writeAll, List.append_nil]
    exact ⟨beside, beside, fun _ _ => held⟩
  | case2 byte rest ih =>
    rw [OnDisk.writeAll]
    refine orFail_good (write_good (byte :: rest) beside held) fun n d beside taken => ?_
    cases n with
    | zero => exact ⟨beside, beside, fun _ same => by contradiction⟩
    | succ n =>
      have later := ih n beside taken
      rwa [List.append_assoc, List.take_succ_cons, List.cons_append, List.take_append_drop] at later

private theorem sync_good {content : Content} (beside : Beside path start d) (held : Private path content d) :
    (OnDisk.sync path).Always serve (Beside path start)
      (Good path start fun _ d => d.files path = some ⟨content, false, true⟩) d := by
  refine always_perform beside fun d' answer served => changed_good beside served ?_
  rintro - ⟨f, here, rfl⟩
  obtain ⟨durable, own⟩ := held
  obtain rfl := Option.some.inj (here.symm.trans own)
  exact ⟨_, rfl, rfl, put_files_self ..⟩

/-- What `writePrivate` leaves when it succeeds: a synced file that only the current user can read. -/
theorem writePrivate_good (path : String) (data : Content) (start : Disk) :
    (OnDisk.writePrivate path data).Always serve (Beside path start)
      (Good path start fun _ d => d.files path = some ⟨data, false, true⟩) start := by
  refine orFail_good (openFile_good (.refl path start)) fun _ d beside _ => ?_
  refine orFail_good (restrict_good beside) fun _ d beside restricted => ?_
  refine orFail_good (setEmpty_good beside restricted) fun _ d beside empty => ?_
  refine orFail_good (writeAll_good data beside empty) fun _ d beside held => ?_
  exact sync_good beside held

/-! ## Moving it into place -/

/-- The file a replacement puts in place. -/
def written (data : Content) : File := ⟨data, false, true⟩

/-- `path` holds what it held or the new file, whole, and after a crash too; only it and the file written first have
changed; and others may read no file that they could not read as it is, unless it is empty. -/
structure Intact (path : String) (data : Content) (start d : Disk) : Prop where
  place : d.files path = start.files path ∨ d.files path = some (written data)
  left : ∀ file, d.Survives path file → start.Survives path file ∨ file = some (written data)
  others : ∀ other, other ≠ path → other ≠ OnDisk.tmp path →
    d.files other = start.files other ∧ d.stale other = start.stale other
  hidden : ∀ other f, d.files other = some f → f.shared = true → start.files other = some f ∨ f.content = []

variable {data : Content}

private theorem tmp_ne (path : String) : path ≠ OnDisk.tmp path := by
  intro same
  have longer := congrArg String.length same
  rw [OnDisk.tmp, String.length_append] at longer
  have four : ".tmp".length = 4 := rfl
  omega

theorem Beside.intact (beside : Beside (OnDisk.tmp path) start d) : Intact path data start d where
  place := .inl (beside.files path (tmp_ne path))
  left := by
    rintro left ⟨file, there, same⟩
    rw [beside.files path (tmp_ne path), beside.stale path (tmp_ne path)] at there
    exact .inl ⟨file, there, same⟩
  others := fun other _ elsewhere => ⟨beside.files other elsewhere, beside.stale other elsewhere⟩
  hidden := by
    intro other f here shared
    by_cases own : other = OnDisk.tmp path
    · subst own
      exact beside.own f here shared
    · exact .inl ((beside.files other own).symm.trans here)

/-- The new file is moved into place. -/
theorem Beside.moved (beside : Beside (OnDisk.tmp path) start d)
    (ready : d.files (OnDisk.tmp path) = some (written data)) :
    Intact path data start ((d.shift (OnDisk.tmp path) none).shift path (d.files (OnDisk.tmp path))) where
  place := by
    rw [shift_files_self]
    exact .inr ready
  left := by
    rintro left ⟨file, there, same⟩
    rw [shift_files_self, shift_stale_self, shift_files_other (tmp_ne path), shift_stale_other (tmp_ne path), ready,
      beside.files path (tmp_ne path), beside.stale path (tmp_ne path)] at there
    rcases there with rfl | old
    · refine .inr (same.resolve_right ?_)
      exact Bool.false_ne_true
    · exact .inl ⟨file, List.mem_cons.mp old, same⟩
  others := by
    intro other elsewhere apart
    rw [shift_files_other elsewhere, shift_files_other apart, shift_stale_other elsewhere, shift_stale_other apart]
    exact ⟨beside.files other apart, beside.stale other apart⟩
  hidden := by
    intro other f here shared
    by_cases own : other = path
    · subst own
      rw [shift_files_self, ready] at here
      obtain rfl := Option.some.inj here
      contradiction
    · rw [shift_files_other own] at here
      by_cases first : other = OnDisk.tmp path
      · subst first
        rw [shift_files_self] at here
        contradiction
      · rw [shift_files_other first] at here
        exact .inl ((beside.files other first).symm.trans here)

/-- What was written first is thrown away. -/
theorem Beside.removed (beside : Beside (OnDisk.tmp path) start d) :
    Beside (OnDisk.tmp path) start (d.shift (OnDisk.tmp path) none) where
  files := fun other elsewhere => (shift_files_other elsewhere).trans (beside.files other elsewhere)
  stale := fun other elsewhere => (shift_stale_other elsewhere).trans (beside.stale other elsewhere)
  own := by
    intro f here
    rw [shift_files_self] at here
    contradiction

/-- What a replacement's answer says. -/
def Settled (path : String) (data : Content) (start : Disk) (answer : Except String Unit) (d : Disk) : Prop :=
  match answer with
  | .ok _ => d.files path = some (written data)
  | .error _ => d.files path = start.files path ∧ d.stale path = start.stale path

theorem replacePrivate_always (path : String) (data : Content) (start : Disk) :
    (OnDisk.replacePrivate path data).Always serve (Intact path data start) (Settled path data start) start := by
  have writes := writePrivate_good (OnDisk.tmp path) data start
  have weaker := writes.weaken (D := Intact path data start) (fun _ beside => beside.intact) fun _ _ good => good
  have unmoved {e : String} {d : Disk} (beside : Beside (OnDisk.tmp path) start d) :
      Settled path data start (.error e) d := ⟨beside.files path (tmp_ne path), beside.stale path (tmp_ne path)⟩
  refine always_orFail weaker (fun _ _ good => good.1.intact) (fun _ d good => ?_) fun _ _ good => unmoved good.1
  obtain ⟨beside, ready⟩ := good
  have ready := ready () rfl
  refine ⟨beside.intact, fun d' answer served => ?_⟩
  cases answer with
  | ok done =>
    obtain ⟨-, rfl⟩ := served
    refine ⟨beside.moved ready, ?_⟩
    exact (shift_files_self ..).trans ready
  | error e =>
    obtain rfl : d' = d := served
    refine ⟨beside.intact, fun d'' answer served => ?_⟩
    have later : Beside (OnDisk.tmp path) start d'' := by
      cases answer with
      | ok done => exact (show d'' = _ from served) ▸ beside.removed
      | error e => exact (show d'' = d' from served) ▸ beside
    exact ⟨later.intact, unmoved later⟩

/-- Whatever fails, and wherever it stops: the file replaced is the old one or the new one, whole, and so is what a
crash leaves of it; only it and the file written first have changed; and nothing is written where others may read it.
When it is done the new file is in place, and when it fails the old one is. -/
theorem replaced_whole (path : String) (data : Content) (start : Disk) :
    (∀ d, Passes serve start (OnDisk.replacePrivate path data) d → Intact path data start d) ∧
      ∀ d answer, Ends serve start (OnDisk.replacePrivate path data) d answer → Settled path data start answer d := by
  have always := replacePrivate_always path data start
  exact ⟨fun d passes => always.passes passes, fun d answer ends => always.ends ends⟩

end Disk

end StreamDelay.Config
