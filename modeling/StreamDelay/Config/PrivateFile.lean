import Mathlib.Logic.Function.Basic
import Mathlib.Tactic.Common
import StreamDelay.Foundations.Program

/-! # Private files, replaced whole

A disk as the program sees it, and what a crash can leave of it: a file not synced since it was written may hold
anything, and what was moved over or away may come back. Any call may fail, and then changes nothing; a write may take
only part of what it is given.
-/

namespace StreamDelay.Config

open Foundations

/-- What a file holds. -/
abbrev Content := List UInt8

structure File where
  content : Content
  /-- Others may read it. -/
  shared : Bool
  /-- Synced since it was last written. -/
  durable : Bool
deriving DecidableEq, Repr

structure Disk where
  files : String → Option File
  /-- For each path, what was there before something was moved there or away. -/
  stale : String → List (Option File)

inductive DiskCall where
  | read (path : String)
  /-- Opens a file for writing. A new one is for the current user only, or gets what its folder gives. -/
  | openFile (path : String)
  | restrict (path : String)
  | setEmpty (path : String)
  | write (path : String) (data : Content)
  | sync (path : String)
  | rename (path target : String)
  | remove (path : String)

/-- Reading answers what the file holds, if there is one, and a write how much it took. -/
abbrev DiskCall.Answer : DiskCall → Type
  | read _ => Except String (Option Content)
  | write .. => Except String ℕ
  | _ => Except String Unit

namespace Disk

def put (path : String) (file : Option File) (d : Disk) : Disk :=
  { d with files := Function.update d.files path file }

/-- What is at `path` changes for good with the next sync of the folder. -/
def shift (path : String) (file : Option File) (d : Disk) : Disk :=
  { d.put path file with stale := Function.update d.stale path (d.files path :: d.stale path) }

/-- What the file at `path` can be after a crash. -/
def Survives (d : Disk) (path : String) (left : Option File) : Prop :=
  ∃ file, (file = d.files path ∨ file ∈ d.stale path) ∧ (left = file ∨ file.any (fun f => !f.durable) = true)

/-- A call fails and changes nothing, or is `done`. -/
def Attempt {α : Type} (d d' : Disk) (answer : Except String α) (done : α → Prop) : Prop :=
  match answer with
  | .ok a => done a
  | .error _ => d' = d

/-- The file at `path` becomes what `change` makes of it. -/
def Changes (path : String) (change : File → File) (d d' : Disk) : Prop :=
  ∃ file, d.files path = some file ∧ d' = d.put path (some (change file))

def serve : Program.Service DiskCall DiskCall.Answer Disk
  | .read path, d, d', answer => Attempt d d' answer fun content =>
    content = (d.files path).map (·.content) ∧ d' = d
  | .openFile path, d, d', answer => Attempt d d' answer fun _ =>
    (d.files path).isSome ∧ d' = d ∨ d.files path = none ∧ ∃ shared, d' = d.put path (some ⟨[], shared, false⟩)
  | .restrict path, d, d', answer => Attempt d d' answer fun _ =>
    Changes path (fun f => { f with shared := false }) d d'
  | .setEmpty path, d, d', answer => Attempt d d' answer fun _ =>
    Changes path (fun f => { f with content := [], durable := false }) d d'
  | .write path data, d, d', answer => Attempt d d' answer fun n => n ≤ data.length ∧
    Changes path (fun f => { f with content := f.content ++ data.take n, durable := false }) d d'
  | .sync path, d, d', answer => Attempt d d' answer fun _ => Changes path (fun f => { f with durable := true }) d d'
  | .rename path target, d, d', answer => Attempt d d' answer fun _ =>
    (d.files path).isSome ∧ d' = (d.shift path none).shift target (d.files path)
  | .remove path, d, d', answer => Attempt d d' answer fun _ => d' = d.shift path none

end Disk

/-- A program on the disk. -/
abbrev OnDisk (α : Type) := Program DiskCall DiskCall.Answer (Except String α)

namespace OnDisk

open Program

def openFile (path : String) : OnDisk Unit := perform (DiskCall.openFile path)

def restrict (path : String) : OnDisk Unit := perform (DiskCall.restrict path)

def setEmpty (path : String) : OnDisk Unit := perform (DiskCall.setEmpty path)

def write (path : String) (data : Content) : OnDisk ℕ := perform (DiskCall.write path data)

def sync (path : String) : OnDisk Unit := perform (DiskCall.sync path)

def rename (path target : String) : OnDisk Unit := perform (DiskCall.rename path target)

def remove (path : String) : OnDisk Unit := perform (DiskCall.remove path)

/-- `write_all`: writes until nothing is left. -/
def writeAll (path : String) : Content → OnDisk Unit
  | [] => done (.ok ())
  | byte :: rest =>
    (write path (byte :: rest)).orFail fun
      | 0 => done (.error "failed to write whole buffer")
      | n + 1 => writeAll path (rest.drop n)
termination_by data => data.length
decreasing_by
  rw [List.length_drop, List.length_cons]
  exact Nat.lt_succ_of_le (Nat.sub_le ..)

/-- Writes a file readable only by the current user. It is restricted before anything is written, and nothing is
written if that fails. -/
def writePrivate (path : String) (data : Content) : OnDisk Unit :=
  (openFile path).orFail fun () =>
  (restrict path).orFail fun () =>
  (setEmpty path).orFail fun () =>
  (writeAll path data).orFail fun () =>
  sync path

/-- Where a file is written before it is moved into place. -/
def tmp (path : String) : String := path ++ ".tmp"

/-- Replaces `path` with a private file holding `data`: written next to it first and then moved into place. -/
def replacePrivate (path : String) (data : Content) : OnDisk Unit :=
  (writePrivate (tmp path) data).orFail fun () =>
  (rename (tmp path) path).andThen fun
    | .ok () => done (.ok ())
    | .error e => (remove (tmp path)).andThen fun _ => done (.error e)

end OnDisk

end StreamDelay.Config
