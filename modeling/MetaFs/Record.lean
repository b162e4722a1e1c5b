import MetaFs.Wire
import MetaFs.Shown
/-!
What the authority tells about its files: the status of an object, a page of a directory, defaults
for new files and the state of the whole store.
-/

namespace MetaFs

/-- Raw bytes, such as a name that need not be text. -/
structure Data where
  bytes : List UInt8 := []
deriving DecidableEq, Repr

namespace Data

def ofString (text : String) : Data :=
  ⟨Utf8.encode text.toList⟩

/-- The text of the bytes, with U+FFFD where they are no text. -/
def lossyText (d : Data) : String :=
  String.ofList (Utf8.decodeLossy d.bytes)

def shown (d : Data) : String :=
  Shown.tuple "Data" [Shown.list (d.bytes.map Shown.number)]

end Data

instance : Wire Data where
  pieces d := [.number 4 d.bytes.length, .raw d.bytes]
  read := do return ⟨← Wire.takeDeclared (← Wire.number 4)⟩

inductive FileType where
  | directory
  | file
  | symlink
deriving DecidableEq, Repr

namespace FileType

def code : FileType → UInt8
  | directory => 1
  | file => 2
  | symlink => 3

def ofCode? : UInt8 → Option FileType
  | 1 => some directory
  | 2 => some file
  | 3 => some symlink
  | _ => none

def name : FileType → String
  | directory => "Dir"
  | file => "File"
  | symlink => "Symlink"

end FileType

instance : Wire FileType where
  pieces t := Wire.pieces t.code
  read := do
    match FileType.ofCode? (← Wire.read) with
    | some t => return t
    | none => Wire.fail .badFileType

/-- Times are in milliseconds. The path is the name within a directory, or empty. -/
structure FileStatus where
  fileType : FileType
  path : Data
  length : UInt64
  permission : UInt32
  owner : String
  group : String
  modificationTime : UInt64
  accessTime : UInt64
  blockReplication : Option UInt16
  blockSize : Option UInt64
deriving DecidableEq, Repr

instance : Wire FileStatus where
  pieces s :=
    Wire.pieces s.fileType ++ Wire.pieces s.path ++ Wire.pieces s.length ++
    Wire.pieces s.permission ++ Wire.pieces s.owner ++ Wire.pieces s.group ++
    Wire.pieces s.modificationTime ++ Wire.pieces s.accessTime ++
    Wire.pieces s.blockReplication ++ Wire.pieces s.blockSize
  read := do
    let fileType ← Wire.read
    let path ← Wire.read
    let length ← Wire.read
    let permission ← Wire.read
    let owner ← Wire.read
    let group ← Wire.read
    let modificationTime ← Wire.read
    let accessTime ← Wire.read
    let blockReplication ← Wire.read
    let blockSize ← Wire.read
    return { fileType, path, length, permission, owner, group, modificationTime, accessTime,
             blockReplication, blockSize }

def FileStatus.shown (s : FileStatus) : String :=
  Shown.record "FileStatus" [
    ("file_type", s.fileType.name),
    ("path", s.path.shown),
    ("length", Shown.number s.length),
    ("permission", Shown.number s.permission),
    ("owner", Quoted.quote s.owner),
    ("group", Quoted.quote s.group),
    ("modification_time", Shown.number s.modificationTime),
    ("access_time", Shown.number s.accessTime),
    ("block_replication", Shown.option Shown.number s.blockReplication),
    ("blocksize", Shown.option Shown.number s.blockSize)]

/-- Part of a directory in the order of its names, and the number of entries after it. -/
structure Page where
  entries : List FileStatus
  remaining : UInt32
deriving DecidableEq, Repr

instance : Wire Page where
  pieces p := Wire.pieces p.entries ++ Wire.pieces p.remaining
  read := do
    let entries ← Wire.read
    let remaining ← Wire.read
    return { entries, remaining }

def Page.shown (p : Page) : String :=
  Shown.record "DirectoryListing" [
    ("partial_listing", Shown.list (p.entries.map FileStatus.shown)),
    ("remaining_entries", Shown.number p.remaining)]

structure ServerDefaults where
  blockSize : UInt64
  bytesPerChecksum : UInt32
  writePacketSize : UInt32
  replication : UInt32
  fileBufferSize : UInt32
deriving DecidableEq, Repr

instance : Wire ServerDefaults where
  pieces d :=
    Wire.pieces d.blockSize ++ Wire.pieces d.bytesPerChecksum ++
    Wire.pieces d.writePacketSize ++ Wire.pieces d.replication ++ Wire.pieces d.fileBufferSize
  read := do
    let blockSize ← Wire.read
    let bytesPerChecksum ← Wire.read
    let writePacketSize ← Wire.read
    let replication ← Wire.read
    let fileBufferSize ← Wire.read
    return { blockSize, bytesPerChecksum, writePacketSize, replication, fileBufferSize }

def ServerDefaults.shown (d : ServerDefaults) : String :=
  Shown.record "ServerDefaults" [
    ("block_size", Shown.number d.blockSize),
    ("bytes_per_checksum", Shown.number d.bytesPerChecksum),
    ("write_packet_size", Shown.number d.writePacketSize),
    ("replication", Shown.number d.replication),
    ("file_buffer_size", Shown.number d.fileBufferSize)]

structure FsStats where
  capacity : UInt64
  used : UInt64
  remaining : UInt64
  underReplicated : UInt64
  corruptBlocks : UInt64
  missingBlocks : UInt64
deriving DecidableEq, Repr

instance : Wire FsStats where
  pieces s :=
    Wire.pieces s.capacity ++ Wire.pieces s.used ++ Wire.pieces s.remaining ++
    Wire.pieces s.underReplicated ++ Wire.pieces s.corruptBlocks ++ Wire.pieces s.missingBlocks
  read := do
    let capacity ← Wire.read
    let used ← Wire.read
    let remaining ← Wire.read
    let underReplicated ← Wire.read
    let corruptBlocks ← Wire.read
    let missingBlocks ← Wire.read
    return { capacity, used, remaining, underReplicated, corruptBlocks, missingBlocks }

def FsStats.shown (s : FsStats) : String :=
  Shown.record "FsStats" [
    ("capacity", Shown.number s.capacity),
    ("used", Shown.number s.used),
    ("remaining", Shown.number s.remaining),
    ("under_replicated", Shown.number s.underReplicated),
    ("corrupt_blocks", Shown.number s.corruptBlocks),
    ("missing_blocks", Shown.number s.missingBlocks)]

end MetaFs
