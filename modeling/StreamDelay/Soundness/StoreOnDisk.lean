import StreamDelay.Config.StoreOnDisk
import StreamDelay.Foundations.Text
import StreamDelay.Soundness.PrivateFile
import StreamDelay.Soundness.StoreCrash

/-! # The secret store keeps its promises on a disk

Each access of the store, as a program on the disk and the keychain, does what the access is to do, and is seen half
done nowhere. So what holds of the store wherever the process stops holds of what is on the disk and in the keychain.
-/

namespace StreamDelay.Config

open Foundations Program

variable {h h' : Host} {s : Secrets}

/-- A program on the disk leaves the keychain alone. -/
theorem onDisk_always {α : Type} {C : Disk → Prop} {Q : α → Disk → Prop} {p : Program DiskCall DiskCall.Answer α}
    (always : p.Always Disk.serve C Q h.disk) :
    (onDisk p).Always Host.serve (fun h' => C h'.disk ∧ h'.keychain = h.keychain)
      (fun a h' => Q a h'.disk ∧ h'.keychain = h.keychain) h := by
  have implements : Implements Disk.serve Host.serve (fun h' d => h'.disk = d ∧ h'.keychain = h.keychain)
      fun i => (perform (.inl i : HostCall)) := by
    rintro i t d ⟨rfl, keychain⟩
    refine ⟨.inl ⟨rfl, keychain⟩, fun t' answer served => ?_⟩
    obtain ⟨served, same⟩ := served
    exact ⟨.inr ⟨t'.disk, answer, served, rfl, same.trans keychain⟩, t'.disk, served, rfl, same.trans keychain⟩
  refine (implements.always always ⟨rfl, rfl⟩).weaken ?_ ?_
  · rintro t ⟨d, passed, rfl, keychain⟩
    exact ⟨passed, keychain⟩
  · rintro a t ⟨d, ended, rfl, keychain⟩
    exact ⟨ended, keychain⟩

namespace FileFormat

variable {format : FileFormat} {path : String}

/-- The store is what the keychain and the file at `path` hold. -/
def Holds (format : FileFormat) (path : String) (h : Host) (s : Secrets) : Prop :=
  s.keychain = h.keychain ∧ format.state ((h.disk.files path).map (·.content)) = .ok s.file

/-- What is written is read back. -/
def Sound (format : FileFormat) : Prop :=
  ∀ map text, format.text map = .ok text → format.parse text = .ok (.readable map)

/-- Nothing the store is read from has changed. -/
theorem Holds.same (holds : format.Holds path h s) (keychain : h'.keychain = h.keychain)
    (files : h'.disk.files path = h.disk.files path) : format.Holds path h' s := by
  unfold Holds
  rw [keychain, files]
  exact holds

/-- What an access has come to: what it was to do, or nothing. -/
def Reached (format : FileFormat) (path : String) (s : Secrets) (i : Access) (r : i.Answer) (h' : Host) : Prop :=
  ∃ s', Secrets.serve i s s' r ∧ format.Holds path h' s'

theorem Reached.passed {i : Access} {r : i.Answer} (reached : format.Reached path s i r h') :
    format.Holds path h' s ∨ ∃ s' r, Secrets.serve i s s' r ∧ format.Holds path h' s' :=
  let ⟨s', served⟩ := reached
  .inr ⟨s', r, served⟩

/-- A keychain that refuses changes nothing. -/
theorem Holds.refused {α : Type} {answer : Except String α} {a : α} {next : Secrets} (holds : format.Holds path h s)
    (failed : ∃ why, answer = .error why) : ∃ s', Secrets.Attempted s s' answer next a ∧ format.Holds path h s' :=
  ⟨s, .inr ⟨failed, rfl⟩, holds⟩

private theorem readFile_reached (holds : format.Holds path h s) :
    (format.readFile path).Always Host.serve (fun h' => format.Holds path h' s) (format.Reached path s .read) h := by
  refine ⟨holds, fun h' answer served => ?_⟩
  obtain ⟨disk, keychain⟩ := served
  cases answer with
  | error e =>
    have same : h'.disk = h.disk := disk
    have later := holds.same keychain (by rw [same])
    exact ⟨later, s, .inr ⟨⟨e, rfl⟩, rfl⟩, later⟩
  | ok content =>
    obtain ⟨rfl, same⟩ := disk
    have later := holds.same keychain (by rw [same])
    refine ⟨later, s, ?_, later⟩
    rw [holds.2]
    exact .inl ⟨rfl, rfl⟩

private theorem moveAside_reached (holds : format.Holds path h s) {answer : Except String Unit}
    (served : Host.serve (.inl (.rename path (path ++ ".damaged"))) h h' answer) :
    format.Reached path s .moveAside answer h' := by
  obtain ⟨disk, keychain⟩ := served
  cases answer with
  | error e =>
    have same : h'.disk = h.disk := disk
    exact ⟨s, .inr ⟨⟨e, rfl⟩, rfl⟩, holds.same keychain (by rw [same])⟩
  | ok done =>
    obtain ⟨-, same⟩ := disk
    refine ⟨_, .inl ⟨rfl, rfl⟩, holds.1.trans keychain.symm, ?_⟩
    have apart : path ≠ path ++ ".damaged" := by
      intro same
      have longer := congrArg String.length same
      rw [String.length_append] at longer
      have eight : ".damaged".length = 8 := rfl
      omega
    rw [same, Disk.shift_files_other apart, Disk.shift_files_self]
    rfl

private theorem writeFile_reached (sound : format.Sound) (turn : Turn) (map : Copies) (holds : format.Holds path h s) :
    (format.writeFile path map).Always Host.serve
      (fun h' => format.Holds path h' s ∨ format.Holds path h' { s with file := .readable map })
      (format.Reached path s (.write turn map)) h := by
  unfold writeFile
  split
  · next e failed => exact ⟨.inl holds, s, .inr ⟨⟨e, rfl⟩, rfl⟩, holds⟩
  · next text written =>
    have stored {h' : Host} (keychain : h'.keychain = h.keychain)
        (there : h'.disk.files path = some (Disk.written text)) :
        format.Holds path h' { s with file := .readable map } := by
      refine ⟨holds.1.trans keychain.symm, ?_⟩
      rw [there]
      exact sound map text written
    refine (onDisk_always (Disk.replacePrivate_always path text h.disk)).weaken ?_ ?_
    · rintro h' ⟨intact, keychain⟩
      exact intact.place.imp (holds.same keychain) (stored keychain)
    · rintro answer h' ⟨settled, keychain⟩
      cases answer with
      | ok done => exact ⟨_, .inl ⟨rfl, rfl⟩, stored keychain settled⟩
      | error e => exact ⟨s, .inr ⟨⟨e, rfl⟩, rfl⟩, holds.same keychain settled.1⟩

/-- A change the keychain is asked for. -/
theorem keychain_reached {name : String} {copy : Option String} (holds : format.Holds path h s)
    {answer : Except String Unit} (disk : h'.disk = h.disk)
    (served : (∃ copies, h.keychain = some copies ∧ answer = .ok () ∧
        h'.keychain = some (Function.update copies name copy)) ∨
      (∃ why, answer = .error why) ∧ h'.keychain = h.keychain) :
    ∃ s', (match s.keychain with
        | some k => Secrets.Attempted s s' answer (s.keep k name copy) ()
        | none => (∃ why, answer = .error why) ∧ s' = s) ∧ format.Holds path h' s' := by
  rw [holds.1]
  rcases served with ⟨copies, there, rfl, changed⟩ | ⟨failed, same⟩
  · rw [there]
    refine ⟨_, .inl ⟨rfl, rfl⟩, changed.symm, ?_⟩
    rw [disk]
    exact holds.2
  · have later := holds.same same (by rw [disk])
    refine ⟨s, ?_, later⟩
    cases h.keychain with
    | none => exact ⟨failed, rfl⟩
    | some k => exact .inr ⟨failed, rfl⟩

/-- Each access of the store is what its program comes to, and is seen half done nowhere. -/
theorem access_implements (sound : format.Sound) (path : String) :
    Implements Secrets.serve Host.serve (format.Holds path) (format.access path) := by
  intro i h s holds
  cases i with
  | read => exact (readFile_reached holds).weaken (fun _ => .inl) fun _ _ => id
  | moveAside =>
    refine ⟨.inl holds, fun h' answer served => ?_⟩
    have reached := moveAside_reached holds served
    exact ⟨reached.passed, reached⟩
  | write turn map =>
    refine (writeFile_reached sound turn map holds).weaken (fun h' passed => ?_) fun _ _ => id
    exact passed.imp id fun stored => ⟨_, .ok (), .inl ⟨rfl, rfl⟩, stored⟩
  | get turn name =>
    refine ⟨.inl holds, fun h' answer served => ?_⟩
    obtain ⟨⟨told, keychain⟩, disk⟩ := served
    have later := holds.same keychain (by rw [disk])
    have reached : format.Reached path s (.get turn name) answer h' := by
      refine ⟨s, ?_, later⟩
      rw [← holds.1] at told
      exact told.imp (fun same => ⟨same, rfl⟩) fun failed => ⟨failed, rfl⟩
    exact ⟨reached.passed, reached⟩
  | set turn name value =>
    refine ⟨.inl holds, fun h' answer served => ?_⟩
    have reached : format.Reached path s (.set turn name value) answer h' := keychain_reached holds served.2 served.1
    exact ⟨reached.passed, reached⟩
  | delete turn name =>
    refine ⟨.inl holds, fun h' answer served => ?_⟩
    have reached : format.Reached path s (.delete turn name) answer h' := keychain_reached holds served.2 served.1
    exact ⟨reached.passed, reached⟩

/-- Operations on the store whose file is at `path`, each to its end or to where the process stops. -/
abbrev Runs (format : FileFormat) (path : String) (start : Host) (ops : List (SecretOp × Secrets.Outcome)) (h : Host) :
    Prop :=
  Program.Runs Host.serve
    (fun h op => (OnStore.program h.keychain.isSome op).implement (format.access path)) start ops h

/-- On the disk, whatever calls fail and wherever the process stops: what the file and the keychain hold after a run is
a store, and its secrets are those of a map on which every operation that said it was done took effect, and any other
did or did not. Where the file can be parsed, reads find them. -/
theorem stored_on_disk {format : FileFormat} {path : String} {start h : Host} {s : Secrets}
    {ops : List (SecretOp × Secrets.Outcome)} (sound : format.Sound) (holds : format.Holds path start s)
    (runs : format.Runs path start ops h) :
    ∃ t, format.Holds path h t ∧ Secrets.Takes s.copy ops t.copy ∧
      ∀ map, t.file = .readable map → ∀ name, t.get {} name = .ok (t.copy name) := by
  have made (h : Host) (s : Secrets) (holds : format.Holds path h s) (op : SecretOp) :
      (OnStore.program h.keychain.isSome op).implement (format.access path) =
        (OnStore.program s.keychain.isSome op).implement (format.access path) := by rw [holds.1]
  obtain ⟨t, runs, holds⟩ := (access_implements sound path).runs made holds runs
  exact ⟨t, holds, Secrets.Runs.takes runs, fun _ file name => Secrets.get_copy file name⟩

/-! ## A text for names and values -/

/-- A line for each name and value of letters and digits, as `toml::to_string` writes them. -/
def lines (entries : List (String × String)) : List Char :=
  entries.flatMap fun entry => entry.1.toList ++ [' ', '=', ' ', '"'] ++ (entry.2.toList ++ ['"', '\n'])

/-- Nothing in it is quoted or escaped. -/
def Plain (entry : String × String) : Prop := ∀ c ∈ entry.1.toList ++ entry.2.toList, Text.isAlphanumeric c = true

/-- Letters and digits up to `close`. -/
def readUpTo (close text : List Char) : Option (String × List Char) :=
  ((text.dropWhile Text.isAlphanumeric).dropPrefix? close).map fun rest =>
    (String.ofList (text.takeWhile Text.isAlphanumeric), rest)

/-- What lines hold, one after another. -/
def readLines : ℕ → List Char → Option (List (String × String))
  | 0, text => if text = [] then some [] else none
  | fuel + 1, text =>
    if text = [] then some []
    else do
      let (name, text) ← readUpTo [' ', '=', ' ', '"'] text
      let (value, text) ← readUpTo ['"', '\n'] text
      let entries ← readLines fuel text
      return (name, value) :: entries

open Classical in
/-- Names and values of letters and digits in the order of the names; it has no text for others. -/
noncomputable def plainText : FileFormat where
  text map :=
    if writes : ∃ entries : List (String × String), (∀ entry ∈ entries, Plain entry) ∧
        entries.Pairwise (fun a b => a.1 < b.1) ∧ map = fun name => entries.lookup name then
      .ok ((lines writes.choose).map fun c => c.toNat.toUInt8)
    else .error "neither letters nor digits"
  parse content :=
    match readLines content.length (content.map fun b => Char.ofNat b.toNat) with
    | some entries => .ok (.readable fun name => entries.lookup name)
    | none => .ok (.damaged "not names and values")

private theorem readUpTo_append {name : List Char} {c : Char} (plain : ∀ c ∈ name, Text.isAlphanumeric c = true)
    (closes : ¬Text.isAlphanumeric c = true) (close rest : List Char) :
    readUpTo (c :: close) (name ++ c :: close ++ rest) = some (String.ofList name, rest) := by
  unfold readUpTo
  rw [List.append_assoc, List.dropWhile_append_of_pos plain, List.takeWhile_append_of_pos plain, List.cons_append,
    List.dropWhile_cons_of_neg closes, List.takeWhile_cons_of_neg closes, List.append_nil, ← List.cons_append,
    List.dropPrefix?_append_of_beq rest (beq_self_eq_true _)]
  rfl

private theorem readLines_lines {entries : List (String × String)} (plain : ∀ entry ∈ entries, Plain entry) {fuel : ℕ}
    (enough : entries.length ≤ fuel) : readLines fuel (lines entries) = some entries := by
  induction entries generalizing fuel with
  | nil => cases fuel <;> rfl
  | cons entry rest ih =>
    obtain ⟨name, value⟩ := entry
    obtain ⟨own, later⟩ := List.forall_mem_cons.mp plain
    have inName (c : Char) (member : c ∈ name.toList) : Text.isAlphanumeric c = true :=
      own c (List.mem_append_left _ member)
    have inValue (c : Char) (member : c ∈ value.toList) : Text.isAlphanumeric c = true :=
      own c (List.mem_append_right _ member)
    cases fuel with
    | zero => contradiction
    | succ fuel =>
      have text : lines ((name, value) :: rest) =
          name.toList ++ [' ', '=', ' ', '"'] ++ (value.toList ++ ['"', '\n'] ++ lines rest) := by
        rw [lines, List.flatMap_cons, List.append_assoc]
        rfl
      have nonempty : lines ((name, value) :: rest) ≠ [] := by
        rw [text]
        simp
      rw [readLines, if_neg nonempty, text, readUpTo_append inName (by decide)]
      change (readUpTo _ _ >>= fun found => readLines fuel found.2 >>= fun entries =>
        some ((String.ofList name.toList, found.1) :: entries)) = _
      rw [readUpTo_append inValue (by decide)]
      change (readLines fuel (lines rest) >>= fun entries => some (_ :: entries)) = _
      rw [ih later (Nat.le_of_succ_le_succ enough), String.ofList_toList, String.ofList_toList]
      rfl

private theorem length_lines (entries : List (String × String)) : entries.length ≤ (lines entries).length := by
  induction entries with
  | nil => exact Nat.le_refl _
  | cons entry rest ih =>
    rw [lines, List.flatMap_cons, List.length_append, List.length_cons]
    change _ ≤ _ + (lines rest).length
    simp only [List.length_append, List.length_cons]
    omega

/-- Nothing that is written takes more than a byte. -/
private theorem char_of_byte {c : Char} (written : Text.isAlphanumeric c = true ∨ c ∈ [' ', '=', '"', '\n']) :
    Char.ofNat c.toNat.toUInt8.toNat = c := by
  have small : c.toNat < 2 ^ 8 := by
    rcases written with plain | closes
    · simp only [Text.isAlphanumeric, Text.isDigit, Bool.or_eq_true, Bool.and_eq_true, decide_eq_true_eq] at plain
      omega
    · simp only [List.mem_cons, List.not_mem_nil, or_false] at closes
      rcases closes with rfl | rfl | rfl | rfl <;> decide
  rw [UInt8.toNat_ofNat_of_lt' small, Char.ofNat_toNat]

private theorem mem_lines {entries : List (String × String)} (plain : ∀ entry ∈ entries, Plain entry) {c : Char}
    (member : c ∈ lines entries) : Text.isAlphanumeric c = true ∨ c ∈ [' ', '=', '"', '\n'] := by
  obtain ⟨entry, listed, inLine⟩ := List.mem_flatMap.mp member
  have own := plain entry listed
  simp only [List.mem_append, List.mem_cons, List.not_mem_nil, or_false] at inLine ⊢
  rcases inLine with (inName | closes) | inValue | closes
  · exact .inl (own c (List.mem_append_left _ inName))
  · tauto
  · exact .inl (own c (List.mem_append_right _ inValue))
  · tauto

private theorem plainText_sound : plainText.Sound := by
  intro map text written
  dsimp only [plainText] at written ⊢
  split at written
  · next writes =>
    obtain ⟨plain, -, same⟩ := writes.choose_spec
    obtain rfl := Except.ok.inj written
    have back : ((lines writes.choose).map fun c => c.toNat.toUInt8).map (fun b => Char.ofNat b.toNat) =
        lines writes.choose := by
      rw [List.map_map]
      exact (List.map_congr_left fun c member => char_of_byte (mem_lines plain member)).trans (List.map_id _)
    rw [back, List.length_map, readLines_lines plain (length_lines _)]
    exact congrArg (fun map => Except.ok (FileState.readable map)) same.symm
  · contradiction

/-- A key in the file, and nothing in the keychain. -/
def saved : Host where
  disk := {
    files := fun path => if path = "secrets.toml" then
      some ⟨(lines [("key", "old")]).map fun c => c.toNat.toUInt8, false, true⟩ else none
    stale := fun _ => [] }
  keychain := some fun _ => none

private theorem served_read (path : String) (h : Host) :
    Host.serve (.inl (.read path)) h h (.ok ((h.disk.files path).map (·.content))) := ⟨⟨rfl, rfl⟩, rfl⟩

private theorem served_open {path : String} {disk : Disk} (keychain : Option Copies) (shared : Bool)
    (missing : disk.files path = none) : Host.serve (.inl (.openFile path)) ⟨disk, keychain⟩
      ⟨disk.put path (some ⟨[], shared, false⟩), keychain⟩ (.ok ()) :=
  ⟨.inr ⟨missing, shared, rfl⟩, rfl⟩

private theorem served_set (disk : Disk) (k : Copies) (name value : String) :
    Host.serve (.inr (.set name value)) ⟨disk, some k⟩ ⟨disk, some (Function.update k name (some value))⟩ (.ok ()) :=
  ⟨.inl ⟨k, rfl, rfl, rfl⟩, rfl⟩

private theorem served_delete (disk : Disk) (k : Copies) (name : String) :
    Host.serve (.inr (.delete name)) ⟨disk, some k⟩ ⟨disk, some (Function.update k name none)⟩ (.ok ()) :=
  ⟨.inl ⟨k, rfl, rfl, rfl⟩, rfl⟩

variable {disk : Disk} {k map : Copies} {name : String}

/-- The keychain takes a value that the file has no copy of. -/
private theorem ends_set (value : String)
    (reads : plainText.state ((disk.files path).map (·.content)) = .ok (.readable map)) (free : map name = none) :
    Ends Host.serve ⟨disk, some k⟩ ((OnStore.program true (.set name value)).implement (plainText.access path))
      ⟨disk, some (Function.update k name (some value))⟩ (.ok none) := by
  refine .call (served_read ..) ?_
  dsimp only [andThen]
  rw [reads]
  refine .call ⟨⟨.inl rfl, rfl⟩, rfl⟩ (.call (served_set ..) ?_)
  dsimp only [andThen]
  rw [free]
  exact .done

/-- A secret is deleted that the file has a copy of, up to where the file to replace it has been made. -/
private theorem passes_delete {text : Content} (shared : Bool)
    (reads : plainText.state ((disk.files path).map (·.content)) = .ok (.readable map))
    (held : (map name).isSome = true) (written : plainText.text (Function.update map name none) = .ok text)
    (missing : disk.files (path ++ ".tmp") = none) :
    Passes Host.serve ⟨disk, some k⟩ ((OnStore.program true (.delete name)).implement (plainText.access path))
      ⟨disk.put (path ++ ".tmp") (some ⟨[], shared, false⟩), some (Function.update k name none)⟩ := by
  refine .call (served_delete ..) (.call (served_read ..) ?_)
  dsimp only [andThen]
  rw [reads]
  show Passes _ _ ((if (map name).isSome = true then OnStore.writeFile .first (Function.update map name none)
    else done (.ok ()) : OnStore Unit).orFail _ |>.implement (plainText.access path)) _
  rw [if_pos held]
  show Passes _ _ ((plainText.writeFile path (Function.update map name none)).andThen _) _
  rw [writeFile, written]
  exact .call (served_open _ shared missing) .here

/-- The keychain takes a second secret, and has none of the first, which is to be deleted; the process stops when the
file that is to replace the old one has just been made. -/
theorem stored_on_disk_stopped :
    let k : Copies := Function.update (fun _ => none) "other" (some "new")
    let h : Host := ⟨saved.disk.put "secrets.toml.tmp" (some ⟨[], true, false⟩), some (Function.update k "key" none)⟩
    ∃ t, plainText.Holds "secrets.toml" h t ∧
      Secrets.Takes (Secrets.copy ⟨saved.keychain, .readable fun name => [("key", "old")].lookup name⟩)
        [(.set "other" "new", some (.ok none)), (.delete "key", none)] t.copy ∧
      ∀ map, t.file = .readable map → ∀ name, t.get {} name = .ok (t.copy name) := by
  intro k h
  have reads : plainText.state ((saved.disk.files "secrets.toml").map (·.content)) =
      .ok (.readable fun name => [("key", "old")].lookup name) := rfl
  have first : plainText.Runs "secrets.toml" saved [(.set "other" "new", some (.ok none))] ⟨saved.disk, some k⟩ :=
    .ended .nil (ends_set _ reads rfl)
  have empty : ∃ entries : List (String × String), (∀ entry ∈ entries, Plain entry) ∧
      entries.Pairwise (fun a b => a.1 < b.1) ∧
      Function.update (fun name => [("key", "old")].lookup name) "key" none = fun name => entries.lookup name := by
    refine ⟨[], fun _ none => absurd none List.not_mem_nil, .nil, funext fun name => ?_⟩
    by_cases own : name = "key"
    · rw [own, Function.update_self]
      rfl
    · rw [Function.update_of_ne own, List.lookup_cons, beq_eq_false_iff_ne.mpr own]
  exact stored_on_disk plainText_sound ⟨rfl, reads⟩ (.stopped first (passes_delete true reads rfl (dif_pos empty) rfl))

end FileFormat

end StreamDelay.Config
