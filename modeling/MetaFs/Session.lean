import MetaFs.FileInfo
import MetaFs.Link
import MetaFs.Numeral
import MetaFs.WorkingDirectory
/-!
A session with the authority. Every operation resolves its paths, sends one request and turns the
one reply into a result; an error says which operation on which path it belongs to.
-/

namespace MetaFs

/-- What is settled before the authority is reached. -/
structure Profile where
  address : Address
  scheme : String
  authority : String
  user : String
  urlPrefix : String
  home : WorkingDirectory
  umask : UInt32
  deadNodeMillis : Nat
deriving DecidableEq

structure Session where
  profile : Profile
  workingDirectory : WorkingDirectory
  blockSize : UInt64
deriving DecidableEq

namespace Session

variable {σ : Type}

/-- The error of a reply that does not answer the request. -/
def unexpected {α : Type} (context : String) (reply : Body) : Over σ α :=
  throw ⟨.io, s!"{context}: unexpected response {reply.kind.name}", none⟩

def fail {α : Type} (errno : Errno) (message : String) : Over σ α :=
  throw ⟨errno, message, none⟩

def path (s : Session) (operation given : String) : Over σ String :=
  match s.workingDirectory.resolve given with
  | .ok path => return path
  | .error e => throw (e.prepend s!"{operation}({given})")

def call (link : Link σ) (context : String) (request : Request) : Over σ Body :=
  (link.call request).within context

/-- The status of an object, under its URI. -/
def stat (s : Session) (link : Link σ) (given : String) : Over σ FileInfo := do
  let src ← s.path "stat" given
  let context := s!"stat({src})"
  match ← call link context (.getFileInfo src) with
  | .reply (.getFileInfo (some status)) =>
    return .ofStatus status (s.profile.urlPrefix ++ src)
  | .reply (.getFileInfo none) => fail .noent s!"{context}: no such file or directory"
  | other => unexpected context other

/-- Only an error that says so means that there is nothing. -/
def exists? (s : Session) (link : Link σ) (given : String) : Over σ Bool :=
  tryCatch (do let _ ← s.stat link given; return true) fun e =>
    if e.kind = .notFound then return false else throw e

def delete (s : Session) (link : Link σ) (given : String) (recursive : Bool) : Over σ Unit := do
  let src ← s.path "delete" given
  let context := s!"delete({src}, recursive={recursive})"
  match ← call link context (.delete src recursive) with
  | .reply (.delete true) => return
  | .reply (.delete false) => fail .noent s!"{context}: deletion failed on the server"
  | other => unexpected context other

/-- What is at the destination is never replaced. -/
def rename (s : Session) (link : Link σ) (source destination : String) : Over σ Unit := do
  let src ← s.path "rename" source
  let dst ← s.path "rename" destination
  let context := s!"rename({src}, {dst})"
  match ← call link context (.rename src dst false) with
  | .reply .rename => return
  | other => unexpected context other

def mkdir (s : Session) (link : Link σ) (given : String) : Over σ Unit := do
  let src ← s.path "mkdir" given
  let context := s!"mkdir({src})"
  match ← call link context (.mkdirs src (0o777 &&& ~~~s.profile.umask) true) with
  | .reply (.mkdirs true) => return
  | .reply (.mkdirs false) =>
    fail .exist s!"{context}: a path component already exists as a non-directory"
  | other => unexpected context other

def setReplication (s : Session) (link : Link σ) (given : String) (replication : UInt16) :
    Over σ Unit := do
  let src ← s.path "set_replication" given
  let context := s!"set_replication({src}, {replication})"
  match ← call link context (.setReplication src replication) with
  | .reply (.setReplication true) => return
  | .reply (.setReplication false) =>
    fail .inval s!"{context}: path does not exist or is not a regular file"
  | other => unexpected context other

def blockSizeAt (s : Session) (link : Link σ) (given : String) : Over σ UInt64 := do
  let src ← s.path "default_block_size_at" given
  let context := s!"default_block_size_at({src})"
  match ← call link context (.getPreferredBlockSize src) with
  | .reply (.getPreferredBlockSize size) => return size
  | other => unexpected context other

def fsStats (link : Link σ) : Over σ FsStats := do
  let context := "fs_stats"
  match ← call link context .getFsStats with
  | .reply (.getFsStats stats) => return stats
  | other => unexpected context other

def capacity (link : Link σ) : Over σ UInt64 := do
  return (← fsStats link).capacity

def used (link : Link σ) : Over σ UInt64 := do
  return (← fsStats link).used

def chown (s : Session) (link : Link σ) (given : String) (user group : Option String) :
    Over σ Unit := do
  let src ← s.path "chown" given
  let shown := Shown.option Quoted.quote
  let context := s!"chown({src}, {shown user}, {shown group})"
  match ← call link context (.setOwner src user group) with
  | .reply .setOwner => return
  | other => unexpected context other

def chmod (s : Session) (link : Link σ) (given : String) (mode : UInt32) : Over σ Unit := do
  let src ← s.path "chmod" given
  let context := s!"chmod({src}, {Numeral.octal mode.toNat})"
  match ← call link context (.setPermission src mode) with
  | .reply .setPermission => return
  | other => unexpected context other

/-- Seconds as the milliseconds of a request, if they are in its range. -/
def millis? (seconds : Int) : Option UInt64 :=
  if 0 ≤ seconds && seconds * 1000 < UInt64.size then some (UInt64.ofNat (seconds.toNat * 1000))
  else none

def requestTime (context : String) : Option Int → Over σ (Option UInt64)
  | none => return none
  | some seconds =>
    match millis? seconds with
    | some millis => return some millis
    | none => fail .inval s!"{context}: time {seconds} out of range"

/-- Sets the times that are given, in seconds. -/
def setTimes (s : Session) (link : Link σ) (given : String) (mtime atime : Option Int) :
    Over σ Unit := do
  let src ← s.path "set_times" given
  let shown := Shown.option (Shown.number (α := Int))
  let context := s!"set_times({src}, {shown mtime}, {shown atime})"
  let modified ← requestTime context mtime
  let accessed ← requestTime context atime
  match ← call link context (.setTimes src modified accessed) with
  | .reply .setTimes => return
  | other => unexpected context other

def setWorkingDirectory (s : Session) (given : String) : Except Error Session := do
  return { s with workingDirectory := ← s.workingDirectory.set given }

def disconnect (link : Link σ) : StateM σ Unit :=
  link.finish

def shown (s : Session) : String :=
  let address := Shown.record "NameNodeAddr" [
    ("host", Quoted.quote s.profile.address.host),
    ("port", Shown.number s.profile.address.port)]
  Shown.record "Handle" [
    ("addr", address), ("url_prefix", Quoted.quote s.profile.urlPrefix),
    ("user", Quoted.quote s.profile.user),
    ("cwd", Quoted.quote s.workingDirectory.text),
    ("umask", Numeral.octal s.profile.umask.toNat),
    ("default_block_size", Shown.number s.blockSize),
    ("dead_node_timeout", Shown.duration s.profile.deadNodeMillis)]

end Session

end MetaFs
