import MetaFs.Record
/-!
What a client reports of an object: its name as a URI, and its status in the client's terms.
-/

namespace MetaFs

inductive ObjectKind where
  | file
  | directory
deriving DecidableEq, Repr

def ObjectKind.name : ObjectKind → String
  | file => "File"
  | directory => "Directory"

/-- Times are in whole seconds. -/
structure FileInfo where
  kind : ObjectKind
  name : String
  lastModified : UInt64
  size : UInt64
  replication : Option UInt16
  blockSize : Option UInt64
  owner : String
  group : String
  permissions : UInt32
  lastAccess : UInt64
deriving DecidableEq, Repr

namespace FileInfo

/-- The name is the one in the status behind the given text. A symbolic link counts as a file. -/
def ofStatus (status : FileStatus) (front : String) : FileInfo where
  kind := if status.fileType = .directory then .directory else .file
  name := front ++ status.path.lossyText
  lastModified := status.modificationTime / 1000
  size := status.length
  replication := status.blockReplication
  blockSize := status.blockSize
  owner := status.owner
  group := status.group
  permissions := status.permission
  lastAccess := status.accessTime / 1000

def isDirectory (info : FileInfo) : Bool :=
  info.kind = .directory

end FileInfo

end MetaFs
