import StreamDelay.Config.PrivateFile
import StreamDelay.Config.SecretProgram

/-! # The secret store on a disk

The accesses of the secret store as programs on the disk and the keychain. How the file's text is written and read is
the TOML library's to say.
-/

namespace StreamDelay.Config

open Foundations Program

/-! ## The keychain -/

inductive KeyCall where
  | get (name : String)
  | set (name value : String)
  | delete (name : String)
deriving DecidableEq, Repr

abbrev KeyCall.Answer : KeyCall → Type
  | get _ => Except String (Option String)
  | _ => Except String Unit

/-- A call fails and changes nothing, or the keychain does what it is asked. -/
def KeyCall.serve : Service KeyCall KeyCall.Answer (Option Copies)
  | .get name, k, k', answer =>
    (answer = .ok (k.bind fun copies => copies name) ∨ ∃ why, answer = .error why) ∧ k' = k
  | .set name value, k, k', answer =>
    (∃ copies, k = some copies ∧ answer = .ok () ∧ k' = some (Function.update copies name (some value))) ∨
      (∃ why, answer = .error why) ∧ k' = k
  | .delete name, k, k', answer =>
    (∃ copies, k = some copies ∧ answer = .ok () ∧ k' = some (Function.update copies name none)) ∨
      (∃ why, answer = .error why) ∧ k' = k

/-! ## The disk and the keychain together -/

abbrev HostCall := DiskCall ⊕ KeyCall

abbrev HostCall.Answer : HostCall → Type
  | .inl i => i.Answer
  | .inr i => i.Answer

structure Host where
  disk : Disk
  keychain : Option Copies

def Host.serve : Service HostCall HostCall.Answer Host
  | .inl i, h, h', answer => Disk.serve i h.disk h'.disk answer ∧ h'.keychain = h.keychain
  | .inr i, h, h', answer => KeyCall.serve i h.keychain h'.keychain answer ∧ h'.disk = h.disk

abbrev OnHost (α : Type) := Program HostCall HostCall.Answer α

/-- A program on the disk, beside the keychain. -/
def onDisk {α : Type} (p : Program DiskCall DiskCall.Answer α) : OnHost α :=
  p.implement fun i => perform (.inl i : HostCall)

/-- How the secrets file's text is written and read. -/
structure FileFormat where
  /-- `toml::to_string` -/
  text : Copies → Except String Content
  /-- What the text holds; an error where it is none. -/
  parse : Content → Except String FileState

namespace FileFormat

/-- What is read of the file at a path. -/
def state (format : FileFormat) : Option Content → Except String FileState
  | none => .ok (.readable fun _ => none)
  | some content => format.parse content

variable (format : FileFormat) (path : String)

def readFile : OnHost (Except String FileState) :=
  (perform (.inl (.read path) : HostCall)).andThen fun
    | .ok content => done (format.state content)
    | .error e => done (.error e)

def writeFile (map : Copies) : OnHost (Except String Unit) :=
  match format.text map with
  | .error e => done (.error e)
  | .ok text => onDisk (OnDisk.replacePrivate path text)

/-- An access of the store whose file is at `path`. -/
def access : (i : Access) → OnHost i.Answer
  | .read => format.readFile path
  | .moveAside => perform (.inl (.rename path (path ++ ".damaged")) : HostCall)
  | .write _ map => format.writeFile path map
  | .get _ name => perform (.inr (.get name) : HostCall)
  | .set _ name value => perform (.inr (.set name value) : HostCall)
  | .delete _ name => perform (.inr (.delete name) : HostCall)

end FileFormat

end StreamDelay.Config
