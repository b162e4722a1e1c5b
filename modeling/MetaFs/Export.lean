import MetaFs.ExportPath
import MetaFs.FileSystem
import MetaFs.Server
/-!
A name system that exports a directory of a file system.
-/

namespace MetaFs

/-- A user or a group that is known by name. -/
structure Account where
  name : String
  id : Nat
deriving DecidableEq, Repr

/-- The blocks of a whole file system. -/
structure Usage where
  fragmentSize : UInt64 := 0
  blocks : UInt64 := 0
  free : UInt64 := 0
  available : UInt64 := 0

def Usage.stats (u : Usage) : FsStats where
  capacity := u.blocks * u.fragmentSize
  used := UInt64.ofNat (u.blocks.toNat - u.free.toNat) * u.fragmentSize
  remaining := u.available * u.fragmentSize
  underReplicated := 0
  corruptBlocks := 0
  missingBlocks := 0

/-- An export of the directory `root`. The blocks in use at a place are those of the file system
that holds it, with all that is in it besides the export. -/
structure Export where
  root : TreePath
  listingLimit : Nat
  blockSize : UInt64
  caller : Caller := {}
  users : List Account := []
  groups : List Account := []
  usage : Tree → TreePath → Usage := fun _ _ => {}

namespace Export

abbrev Answer := ExceptT Error (StateM Tree) Body

def refuse {α : Type} (errno : Errno) (message : String) : ExceptT Error (StateM Tree) α :=
  throw ⟨errno, message, none⟩

def ofExcept {α : Type} : Except Error α → ExceptT Error (StateM Tree) α
  | .ok a => return a
  | .error e => throw e

/-- A call that only looks at the tree. -/
def look {α : Type} (f : Tree → Except Fault α) : ExceptT Error (StateM Tree) α := do
  match f (← (get : StateM Tree Tree)) with
  | .ok a => return a
  | .error e => throw e.systemError

/-- A call that changes the tree if it succeeds. -/
def change (report : Fault → Error) (f : Tree → Except Fault Tree) :
    ExceptT Error (StateM Tree) Unit := do
  match f (← (get : StateM Tree Tree)) with
  | .ok t => (set t : StateM Tree PUnit)
  | .error e => throw (report e)

def names (src : String) : ExceptT Error (StateM Tree) (List Name) := do
  return (← ofExcept (ExportPath.names src)).map fun name => Utf8.encode name.toList

def path (e : Export) (src : String) : ExceptT Error (StateM Tree) TreePath := do
  return e.root ++ (← names src)

/-- The node at a path, or nothing where there is none. -/
def lookupPath (e : Export) (path : TreePath) : ExceptT Error (StateM Tree) (Option Node) := do
  match FileSystem.status (← (get : StateM Tree Tree)) e.caller path with
  | .ok node => return some node
  | .error fault => if fault = .errno .noent then return none else throw fault.systemError

def lookup (e : Export) (src : String) : ExceptT Error (StateM Tree) (Option Node) := do
  e.lookupPath (← e.path src)

def accountName (accounts : List Account) (id : Nat) : String :=
  match accounts.find? (·.id == id) with
  | some account => account.name
  | none => toString id

/-- The status of a node. Only regular files have a replication, which is one, and a block size. -/
def statusOf (e : Export) (name : Name) (node : Node) : FileStatus where
  fileType := match node.kind with
    | .directory => .directory
    | .file _ | .special _ => .file
    | .symlink _ => .symlink
  path := ⟨name⟩
  length := match node.kind with
    | .directory => 0
    | .file size | .special size => UInt64.ofNat size
    | .symlink target => UInt64.ofNat target.length
  permission := UInt32.ofNat (node.mode % 0o10000)
  owner := accountName e.users node.uid
  group := accountName e.groups node.gid
  modificationTime := node.modified.millis
  accessTime := node.accessed.millis
  blockReplication := if node.isFile then some 1 else none
  blockSize := if node.isFile then some e.blockSize else none

def connect (protocol : String) : Answer := do
  if protocol ≠ protocolName then
    refuse .protonosupport s!"unknown protocol {protocol}"
  return .reply .connect

def getServerDefaults (e : Export) : Answer :=
  return .reply <| .getServerDefaults
    { blockSize := e.blockSize
      bytesPerChecksum := 512
      writePacketSize := 65536
      replication := 1
      fileBufferSize := 4096 }

def getFileInfo (e : Export) (src : String) : Answer := do
  return .reply (.getFileInfo ((← e.lookup src).map (e.statusOf [])))

/-- The first names after a given one, as many as a page has, and how many are left. -/
def pageNames (limit : Nat) (startAfter : Name) (all : List Name) : List Name × Nat :=
  let later := all.filter (startAfter < ·)
  (later.take limit, later.length - limit)

def getListing (e : Export) (src : String) (startAfter : Data) : Answer := do
  let directory ← e.path src
  match ← e.lookup src with
  | none => return .reply (.getListing none)
  | some node =>
    if !node.isDirectory then refuse .notdir s!"{src}: not a directory"
    let all ← look (FileSystem.list · e.caller directory)
    let (page, left) := pageNames e.listingLimit startAfter.bytes all
    let entries ← page.mapM fun name => do
      let node ← look (FileSystem.status · e.caller (directory ++ [name]))
      return e.statusOf name node
    return .reply (.getListing (some ⟨entries, UInt32.ofNat (min left (UInt32.size - 1))⟩))

/-- Goes down the names below a directory and makes those that are missing. The result is whether
all of them are directories then. -/
def makeAll (e : Export) (src : String) (mode : Nat) (createParent : Bool) (above : TreePath) :
    List Name → ExceptT Error (StateM Tree) Bool
  | [] => return true
  | name :: rest => do
    let here := above ++ [name]
    match ← e.lookupPath here with
    | some node =>
      if node.isDirectory then makeAll e src mode createParent here rest else return false
    | none =>
      if !createParent && !rest.isEmpty then refuse .noent s!"{src}: parent does not exist"
      change Fault.systemError (FileSystem.makeDirectory · e.caller here mode)
      makeAll e src mode createParent here rest

def mkdirs (e : Export) (src : String) (masked : UInt32) (createParent : Bool) : Answer := do
  return .reply (.mkdirs (← e.makeAll src masked.toNat createParent e.root (← names src)))

def removeAll (e : Export) (path : TreePath) : ExceptT Error (StateM Tree) Unit := do
  match ← ((FileSystem.removeAll e.caller path).run : StateM Tree (Except Fault Unit)) with
  | .ok () => return
  | .error fault => throw fault.systemError

def delete (e : Export) (src : String) (recursive : Bool) : Answer := do
  let below ← names src
  if below.isEmpty then refuse .perm "refusing to delete the root"
  let path := e.root ++ below
  match ← e.lookup src with
  | none => return .reply (.delete false)
  | some node =>
    if node.isDirectory then
      if recursive then e.removeAll path
      else change Fault.systemError (FileSystem.removeDirectory · e.caller path)
    else change Fault.systemError (FileSystem.removeFile · e.caller path)
    return .reply (.delete true)

def rename (e : Export) (src dst : String) (overwrite : Bool) : Answer := do
  let source ← e.path src
  let destination ← e.path dst
  if !overwrite then
    if (← e.lookup dst).isSome then
      refuse .exist s!"rename destination {dst} already exists"
  change Fault.systemError (FileSystem.rename · e.caller source destination)
  return .reply .rename

/-- Replication cannot be changed, but it can be asked for on a regular file. -/
def setReplication (e : Export) (src : String) : Answer := do
  return .reply (.setReplication ((← e.lookup src).any Node.isFile))

def setPermission (e : Export) (src : String) (permission : UInt32) : Answer := do
  let path ← e.path src
  change Fault.systemError (FileSystem.setMode · e.caller path permission.toNat)
  return .reply .setPermission

def accountId (accounts : List Account) (what : String) :
    Option String → ExceptT Error (StateM Tree) (Option Nat)
  | none => return none
  | some name =>
    match accounts.find? (·.name == name) with
    | some account => return some account.id
    | none => refuse .inval s!"unknown {what} {name}"

def setOwner (e : Export) (src : String) (user group : Option String) : Answer := do
  let path ← e.path src
  let uid ← accountId e.users "user" user
  let gid ← accountId e.groups "group" group
  change Fault.plainError (FileSystem.setOwner · e.caller path uid gid)
  return .reply .setOwner

/-- A time that is not given stays as it is. -/
def setTimes (e : Export) (src : String) (mtime atime : Option UInt64) : Answer := do
  let path ← e.path src
  let node ← look (FileSystem.status · e.caller path)
  let moment (given : Option UInt64) (old : Moment) : Moment :=
    match given with
    | some n => .ofMillis n.toNat
    | none => old
  change Fault.systemError
    (FileSystem.setTimes · e.caller path (moment mtime node.modified) (moment atime node.accessed))
  return .reply .setTimes

def getPreferredBlockSize (e : Export) (src : String) : Answer := do
  if (← e.lookup src).isNone then refuse .noent s!"{src}: no such file or directory"
  return .reply (.getPreferredBlockSize e.blockSize)

def getFsStats (e : Export) : Answer := do
  let t ← (get : StateM Tree Tree)
  match FileSystem.locate t e.caller true e.root with
  | .ok place => return .reply (.getFsStats (e.usage t place).stats)
  | .error fault => throw fault.plainError

def answer (e : Export) : Request → Answer
  | .connect protocol _ => connect protocol
  | .getServerDefaults => e.getServerDefaults
  | .getFileInfo src => e.getFileInfo src
  | .getListing src startAfter _ => e.getListing src startAfter
  | .mkdirs src masked createParent => e.mkdirs src masked createParent
  | .delete src recursive => e.delete src recursive
  | .rename src dst overwrite => e.rename src dst overwrite
  | .setReplication src _ => e.setReplication src
  | .setPermission src permission => e.setPermission src permission
  | .setOwner src user group => e.setOwner src user group
  | .setTimes src mtime atime => e.setTimes src mtime atime
  | .getPreferredBlockSize src => e.getPreferredBlockSize src
  | .getFsStats => e.getFsStats

def namesystem (e : Export) : Namesystem Tree := fun request => (e.answer request).run

end Export

end MetaFs
