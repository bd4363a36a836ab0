import StreamDelay.Config.SecretProgram

/-! # The secret store's programs do what its operations do

Where the accesses are answered as the faults of an operation say, the program of the operation ends as the operation
does.
-/

namespace StreamDelay.Config

open Foundations Program

namespace Secrets

/-- How an access that may fail is answered, and what it leaves. -/
def answered {α : Type} (fault : Option String) (s after : Secrets) (a : α) : Secrets × Except String α :=
  match fault with
  | none => (after, .ok a)
  | some why => (s, .error why)

/-- How the faults of an operation have its accesses answered. -/
def respond (f : Faults) (s : Secrets) : (i : Access) → Secrets × i.Answer
  | .read => (s, f.read.elim (.ok s.file) .error)
  | .moveAside => answered f.rename s { s with file := .readable fun _ => none } ()
  | .write turn map => answered (if turn = .undo then f.undo else f.write) s { s with file := .readable map } ()
  | .get turn name =>
    (s, (if turn = .older then f.older else f.get).elim (.ok (s.keychain.bind fun k => k name)) .error)
  | .set turn name value =>
    match s.keychain with
    | none => (s, .error "")
    | some k => answered (if turn = .undo then f.undo else f.set) s (s.keep k name (some value)) ()
  | .delete turn name =>
    match s.keychain with
    | none => (s, .error "")
    | some k => answered (if turn = .undo then f.undo else f.delete) s (s.keep k name none) ()

/-- The answers are ones the accesses can have. -/
theorem respond_served (f : Faults) (s : Secrets) (i : Access) : serve i s (respond f s i).1 (respond f s i).2 := by
  have attempted {α : Type} (fault : Option String) (after : Secrets) (a : α) :
      Attempted s (answered fault s after a).1 (answered fault s after a).2 after a := by
    cases fault with
    | none => exact .inl ⟨rfl, rfl⟩
    | some why => exact .inr ⟨⟨why, rfl⟩, rfl⟩
  have read {α : Type} (fault : Option String) (a : α) : Attempted s s (fault.elim (.ok a) .error) s a := by
    cases fault with
    | none => exact .inl ⟨rfl, rfl⟩
    | some why => exact .inr ⟨⟨why, rfl⟩, rfl⟩
  cases i with
  | read => exact read ..
  | moveAside => exact attempted ..
  | write => exact attempted ..
  | get => exact read ..
  | set turn name value =>
    dsimp only [serve, respond]
    cases s.keychain with
    | none => exact ⟨⟨"", rfl⟩, rfl⟩
    | some k => exact attempted ..
  | delete turn name =>
    dsimp only [serve, respond]
    cases s.keychain with
    | none => exact ⟨⟨"", rfl⟩, rfl⟩
    | some k => exact attempted ..

theorem run_orFail {α β ε : Type} (answer : Secrets → (i : Access) → Secrets × i.Answer)
    (p : Program Access Access.Answer (Except ε α)) (k : α → Program Access Access.Answer (Except ε β)) (s : Secrets) :
    (p.orFail k).run answer s =
      match p.run answer s with
      | (t, .ok a) => (k a).run answer t
      | (t, .error e) => (t, .error e) := by
  unfold orFail
  rw [run_andThen]
  rcases p.run answer s with ⟨t, _ | a⟩ <;> rfl

theorem ask_run (f : Faults) (name : String) (fileError : Option SecretError) (s : Secrets) :
    (OnStore.ask s.keychain.isSome name fileError).run (respond f) s =
      (s, (s.fromKeychain f name).bind (answer fileError)) := by
  unfold OnStore.ask fromKeychain
  cases there : s.keychain with
  | none => rfl
  | some k =>
    rw [Option.isSome_some, if_pos rfl, run_orFail]
    cases fault : f.get with
    | none =>
      simp [OnStore.fails, run_andThen, perform, run, respond, access, fault, there, Except.mapError, Except.bind]
    | some why => simp [OnStore.fails, run_andThen, perform, run, respond, access, fault, Except.mapError, Except.bind]

private theorem get_run (f : Faults) (name : String) (s : Secrets) :
    (OnStore.get s.keychain.isSome name).run (respond f) s = (s, s.get f name) := by
  unfold OnStore.get get readFile access
  rw [run_andThen]
  cases fault : f.read with
  | some why =>
    simpa [OnStore.fails, run_andThen, perform, run, respond, fault, Except.mapError] using ask_run f name _ s
  | none =>
    cases file : s.file with
    | damaged why =>
      simpa [OnStore.fails, run_andThen, perform, run, respond, fault, file, Except.mapError] using ask_run f name _ s
    | readable map =>
      cases copy : map name with
      | some v => simp [OnStore.fails, run_andThen, perform, run, respond, fault, file, copy, Except.mapError]
      | none =>
        simpa [OnStore.fails, run_andThen, perform, run, respond, fault, file, copy, Except.mapError] using
          ask_run f name none s

theorem loadForWrite_run (f : Faults) (s : Secrets) :
    OnStore.loadForWrite.run (respond f) s =
      match s.loadForWrite f with
      | .ok (map, t) => (t, .ok map)
      | .error e => (s, .error e) := by
  obtain ⟨keychain, file⟩ := s
  obtain ⟨read, rename, _, _, _, _, _, _⟩ := f
  cases read with
  | some why => rfl
  | none =>
    cases file with
    | readable map => rfl
    | damaged why => cases rename <;> rfl

theorem writeFile_run (f : Faults) (turn : Turn) (map : Copies) (s : Secrets) :
    (OnStore.writeFile turn map).run (respond f) s =
      match access (if turn = .undo then f.undo else f.write) .file { s with file := .readable map } with
      | .ok t => (t, .ok ())
      | .error e => (s, .error e) := by
  unfold OnStore.writeFile OnStore.fails
  rw [run_andThen]
  dsimp only [perform, run, respond]
  cases (if turn = .undo then f.undo else f.write) <;> rfl

theorem setInFile_run (f : Faults) (name value : String) (map : Copies) (s : Secrets) :
    (OnStore.setInFile s.keychain.isSome name value map).run (respond f) s = s.setInFile f name value map := by
  unfold OnStore.setInFile setInFile writeFile
  rw [run_orFail, writeFile_run]
  obtain ⟨keychain, file⟩ := s
  obtain ⟨read, rename, write, get, set, older, delete, undo⟩ := f
  cases write with
  | some why => rfl
  | none =>
    cases keychain with
    | none => rfl
    | some k =>
      cases older with
      | some why => cases delete with
        | none => rfl
        | some why => cases undo <;> rfl
      | none =>
        cases copy : k name with
        | none => simp [access, run_andThen, perform, run, respond, copy]
        | some old =>
          cases delete with
          | none => simp [access, run_andThen, perform, run, respond, answered, copy]
          | some why =>
            cases undo <;>
              simp [access, run_andThen, perform, run, respond, answered, copy, OnStore.writeFile, OnStore.fails,
                Except.mapError]

theorem loadForWrite_left {f : Faults} {s t : Secrets} {map : Copies} (loaded : s.loadForWrite f = .ok (map, t)) :
    t.file = .readable map ∧ t.keychain = s.keychain := by
  obtain ⟨keychain, file⟩ := s
  obtain ⟨read, rename, _, _, _, _, _, _⟩ := f
  cases read with
  | some why => contradiction
  | none =>
    cases file with
    | readable m =>
      obtain ⟨rfl, rfl⟩ := Prod.mk.inj (Except.ok.inj loaded)
      exact ⟨rfl, rfl⟩
    | damaged why =>
      cases rename with
      | some why => contradiction
      | none =>
        obtain ⟨rfl, rfl⟩ := Prod.mk.inj (Except.ok.inj loaded)
        exact ⟨rfl, rfl⟩

private theorem set_run (f : Faults) (name value : String) (s : Secrets) :
    (OnStore.set s.keychain.isSome name value).run (respond f) s = s.set f name value := by
  unfold OnStore.set set
  rw [run_orFail, loadForWrite_run]
  cases loaded : s.loadForWrite f with
  | error e => rfl
  | ok result =>
    obtain ⟨map, t⟩ := result
    obtain ⟨file, keychain⟩ := loadForWrite_left loaded
    rw [← keychain]
    dsimp only
    cases there : t.keychain with
    | none =>
      have inFile := setInFile_run f name value map t
      rw [there] at inFile
      exact inFile
    | some k =>
      have inFile := setInFile_run f name value map t
      rw [there] at inFile
      cases fault : f.set with
      | some why =>
        simpa only [Option.isSome_some, if_true, run_andThen, perform, run, respond, there, answered, fault,
          reduceCtorEq, if_false] using inFile
      | none =>
        cases copy : map name with
        | none => simp [run_andThen, perform, run, respond, there, answered, fault]
        | some old =>
          cases fault' : f.write with
          | none =>
            simp [run_andThen, perform, run, respond, there, answered, fault, fault', writeFile, access,
              OnStore.writeFile, OnStore.fails, Except.mapError]
          | some why =>
            cases got : f.get with
            | some why' =>
              simp [run_andThen, perform, run, respond, there, answered, fault, fault', got, writeFile, access,
                OnStore.writeFile, OnStore.fails, Except.mapError, OnStore.undoSet, undoSet]
            | none =>
              cases had : k name <;> cases undo : f.undo <;>
                simp [run_andThen, perform, run, respond, there, answered, fault, fault', got, writeFile, access,
                  OnStore.writeFile, OnStore.fails, Except.mapError, OnStore.undoSet, undoSet, had, undo, keep]

theorem removeFromFile_run (f : Faults) (name : String) (s : Secrets) :
    (OnStore.removeFromFile name).run (respond f) s = s.removeFromFile f name := by
  unfold OnStore.removeFromFile removeFromFile
  rw [run_orFail, loadForWrite_run]
  cases loaded : s.loadForWrite f with
  | error e => rfl
  | ok result =>
    obtain ⟨map, t⟩ := result
    obtain ⟨-, keychain⟩ := loadForWrite_left loaded
    dsimp only
    cases map name with
    | none => rfl
    | some old =>
      have write := writeFile_run f .first (Function.update map name none) t
      refine Eq.trans write ?_
      rw [if_neg (by decide)]
      unfold writeFile
      cases f.write <;> rfl

private theorem delete_run (f : Faults) (name : String) (s : Secrets) :
    (OnStore.delete s.keychain.isSome name).run (respond f) s = s.delete f name := by
  unfold OnStore.delete delete
  cases there : s.keychain with
  | none => exact removeFromFile_run f name s
  | some k =>
    have removed := removeFromFile_run f name (s.keep k name none)
    rw [if_pos Option.isSome_some, run_orFail]
    cases fault : f.delete with
    | none =>
      simpa [OnStore.fails, run_andThen, perform, run, respond, there, answered, fault, Except.mapError] using removed
    | some why => simp [OnStore.fails, run_andThen, perform, run, respond, there, answered, fault, Except.mapError]

/-- The program of an operation does what the operation does. -/
theorem program_run (f : Faults) (op : SecretOp) (s : Secrets) :
    step s (op, f) = Prod.map id (fun answer => [answer])
      ((OnStore.program s.keychain.isSome op).run (respond f) s) := by
  cases op with
  | get name =>
    show _ = Prod.map id _ ((OnStore.get _ name).run (respond f) s)
    rw [get_run]
    rfl
  | set name value =>
    show _ = Prod.map id _ (((OnStore.set _ name value).orFail _).run (respond f) s)
    rw [run_orFail, set_run]
    unfold step
    dsimp only
    rcases s.set f name value with ⟨t, _ | _⟩ <;> rfl
  | delete name =>
    show _ = Prod.map id _ (((OnStore.delete _ name).orFail _).run (respond f) s)
    rw [run_orFail, delete_run]
    unfold step
    dsimp only
    rcases s.delete f name with ⟨t, _ | _⟩ <;> rfl

/-- Operations on the secrets one after another, each to its end or to where the process stops. -/
abbrev Runs (start : Secrets) (ops : List (SecretOp × Option (Except SecretError (Option String)))) (s : Secrets) :
    Prop :=
  Program.Runs serve (fun s => OnStore.program s.keychain.isSome) start ops s

/-- A run goes on with an operation. -/
theorem Runs.step {start s t : Secrets} {ops : List (SecretOp × Option (Except SecretError (Option String)))}
    {op : SecretOp} {f : Faults} {answer : Except SecretError (Option String)} (runs : Runs start ops s)
    (stepped : s.step (op, f) = (t, [answer])) : Runs start (ops ++ [(op, some answer)]) t := by
  have ends := run_ends (respond_served f) (OnStore.program s.keychain.isSome op) s
  have same := (program_run f op s).symm.trans stepped
  obtain ⟨reached, answered⟩ := Prod.mk.inj same
  obtain rfl : _ = t := reached
  obtain rfl : _ = answer := List.singleton_inj.mp answered
  exact .ended runs ends

end Secrets

end StreamDelay.Config
