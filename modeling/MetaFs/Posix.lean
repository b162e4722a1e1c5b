import MetaFs.Listing
import MetaFs.Settings
/-!
The operations as a C program calls them: a return code instead of an error, and the last error
kept aside until the next one.
-/

namespace MetaFs

structure LastError where
  errno : Errno
  message : String
deriving DecidableEq

namespace Posix

/-- What runs over a link and may set the last error, but does not fail. -/
abbrev Call (σ : Type) := StateT (Option LastError) (StateM σ)

variable {σ : Type}

def record (e : Error) : Call σ Unit :=
  set (some (⟨e.errno, e.message⟩ : LastError))

/-- The value of an operation that succeeds. -/
def pointer {α : Type} (x : Over σ α) : Call σ (Option α) := do
  match ← (x.run : StateM σ (Except Error α)) with
  | .ok a => return some a
  | .error e =>
    record e
    return none

/-- Zero, or minus one after a failure. -/
def code (x : Over σ Unit) : Call σ Int := do
  match ← pointer x with
  | some _ => return 0
  | none => return -1

/-- A number, or minus one after a failure or when it does not fit in 63 bits. -/
def value (x : Over σ UInt64) : Call σ Int := do
  let checked : Over σ UInt64 := do
    let n ← x
    if n.toNat < Numeral.signedBound then return n
    else throw ⟨.overflow, s!"value {n} does not fit in 64 bits", none⟩
  match ← pointer checked with
  | some n => return n.toNat
  | none => return -1

def connect (settings : Settings) (processUser : String) (link : Link σ) :
    Call σ (Option Session) :=
  pointer (settings.connect processUser link)

def disconnect (link : Link σ) : Call σ Int := do
  link.finish
  return 0

def exists? (s : Session) (link : Link σ) (path : String) : Call σ Int :=
  code do let _ ← s.stat link path

def delete (s : Session) (link : Link σ) (path : String) (recursive : Int) : Call σ Int :=
  code (s.delete link path (recursive != 0))

def rename (s : Session) (link : Link σ) (source destination : String) : Call σ Int :=
  code (s.rename link source destination)

/-- The text of the working directory, if a buffer of so many bytes can hold it. -/
def workingDirectory (s : Session) (size : Nat) : Call σ (Option String) :=
  match s.workingDirectory.terminated size with
  | .ok _ => return some s.workingDirectory.text
  | .error e => do
    record e
    return none

def setWorkingDirectory (s : Session) (path : String) : Call σ (Int × Session) :=
  match s.setWorkingDirectory path with
  | .ok moved => return (0, moved)
  | .error e => do
    record e
    return (-1, s)

def createDirectory (s : Session) (link : Link σ) (path : String) : Call σ Int :=
  code (s.mkdir link path)

def setReplication (s : Session) (link : Link σ) (path : String) (replication : Int16) :
    Call σ Int :=
  code <|
    if replication.toInt < 0 then
      throw ⟨.inval, s!"invalid replication factor {replication}", none⟩
    else s.setReplication link path replication.toUInt16

def listDirectory (s : Session) (link : Link σ) (pages : Nat) (path : String) :
    Call σ (Option (Option (List FileInfo))) :=
  pointer (s.listDirectory link pages path)

def pathInfo (s : Session) (link : Link σ) (path : String) : Call σ (Option FileInfo) :=
  pointer (s.stat link path)

def defaultBlockSize (s : Session) : Call σ Int :=
  value (return s.blockSize)

def defaultBlockSizeAt (s : Session) (link : Link σ) (path : String) : Call σ Int :=
  value (s.blockSizeAt link path)

def capacity (link : Link σ) : Call σ Int :=
  value (Session.capacity link)

def used (link : Link σ) : Call σ Int :=
  value (Session.used link)

def chown (s : Session) (link : Link σ) (path : String) (owner group : Option String) :
    Call σ Int :=
  code (s.chown link path owner group)

/-- The bits of the mode count, not its sign. -/
def chmod (s : Session) (link : Link σ) (path : String) (mode : Int16) : Call σ Int :=
  code (s.chmod link path mode.toUInt16.toUInt32)

/-- A negative time leaves that time as it is. -/
def utime (s : Session) (link : Link σ) (path : String) (mtime atime : Int64) : Call σ Int :=
  code (s.setTimes link path (given mtime) (given atime))
where
  given (t : Int64) : Option Int :=
    if t.toInt < 0 then none else some t.toInt

end Posix

end MetaFs
