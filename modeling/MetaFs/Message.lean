import MetaFs.Record
/-!
The messages between a client and the authority. A client numbers its requests; the one reply to a
request carries the request's number, and is of the operation's own type or an error.
-/

namespace MetaFs

/-- The name of the protocol, which the first request of a connection carries. -/
def protocolName : String := "org.apache.hadoop.hdfs.protocol.ClientProtocol"

inductive Operation where
  | error
  | connect
  | getServerDefaults
  | getFileInfo
  | getListing
  | mkdirs
  | delete
  | rename
  | setReplication
  | setPermission
  | setOwner
  | setTimes
  | getPreferredBlockSize
  | getFsStats
deriving DecidableEq, Repr

namespace Operation

/-- The number of the operation's request; its reply has the next one. -/
def number : Operation → Nat
  | error => 0
  | connect => 2
  | getServerDefaults => 10
  | getFileInfo => 12
  | getListing => 14
  | mkdirs => 16
  | delete => 18
  | rename => 20
  | setReplication => 22
  | setPermission => 24
  | setOwner => 26
  | setTimes => 28
  | getPreferredBlockSize => 30
  | getFsStats => 32

def name : Operation → String
  | error => "Error"
  | connect => "Connect"
  | getServerDefaults => "GetServerDefaults"
  | getFileInfo => "GetFileInfo"
  | getListing => "GetListing"
  | mkdirs => "Mkdirs"
  | delete => "Delete"
  | rename => "Rename2"
  | setReplication => "SetReplication"
  | setPermission => "SetPermission"
  | setOwner => "SetOwner"
  | setTimes => "SetTimes"
  | getPreferredBlockSize => "GetPreferredBlockSize"
  | getFsStats => "GetFsStats"

def all : List Operation := [
  error, connect, getServerDefaults, getFileInfo, getListing, mkdirs, delete, rename,
  setReplication, setPermission, setOwner, setTimes, getPreferredBlockSize, getFsStats]

end Operation

inductive Direction where
  | request
  | reply
deriving DecidableEq, Repr

/-- The type of a message. -/
structure Kind where
  operation : Operation
  direction : Direction
deriving DecidableEq, Repr

namespace Kind

def number (k : Kind) : UInt8 :=
  match k.direction with
  | .request => UInt8.ofNat k.operation.number
  | .reply => UInt8.ofNat (k.operation.number + 1)

def ofNumber? (n : UInt8) : Option Kind :=
  let direction := if n % 2 = 0 then Direction.request else .reply
  let operation := Operation.all.find? (fun op => n.toNat / 2 * 2 == op.number)
  operation.map fun op => ⟨op, direction⟩

def name (k : Kind) : String :=
  match k.direction with
  | .request => "T" ++ k.operation.name
  | .reply => "R" ++ k.operation.name

/-- The type of the reply that a request asks for. -/
def response? (k : Kind) : Option Kind :=
  match k.direction with
  | .request => some ⟨k.operation, .reply⟩
  | .reply => none

end Kind

inductive Request where
  | connect (protocol user : String)
  | getServerDefaults
  | getFileInfo (src : String)
  | getListing (src : String) (startAfter : Data) (needLocation : Bool)
  | mkdirs (src : String) (masked : UInt32) (createParent : Bool)
  | delete (src : String) (recursive : Bool)
  | rename (src dst : String) (overwrite : Bool)
  | setReplication (src : String) (replication : UInt16)
  | setPermission (src : String) (permission : UInt32)
  | setOwner (src : String) (user group : Option String)
  | setTimes (src : String) (mtime atime : Option UInt64)
  | getPreferredBlockSize (src : String)
  | getFsStats
deriving DecidableEq, Repr

inductive Reply where
  | error (code : UInt32) (message : String)
  | connect
  | getServerDefaults (defaults : ServerDefaults)
  | getFileInfo (status : Option FileStatus)
  | getListing (page : Option Page)
  | mkdirs (result : Bool)
  | delete (result : Bool)
  | rename
  | setReplication (result : Bool)
  | setPermission
  | setOwner
  | setTimes
  | getPreferredBlockSize (size : UInt64)
  | getFsStats (stats : FsStats)
deriving DecidableEq, Repr

inductive Body where
  | request (r : Request)
  | reply (r : Reply)
deriving DecidableEq, Repr

structure Message where
  callId : UInt32
  body : Body
deriving DecidableEq, Repr

namespace Request

def operation : Request → Operation
  | connect .. => .connect
  | getServerDefaults => .getServerDefaults
  | getFileInfo .. => .getFileInfo
  | getListing .. => .getListing
  | mkdirs .. => .mkdirs
  | delete .. => .delete
  | rename .. => .rename
  | setReplication .. => .setReplication
  | setPermission .. => .setPermission
  | setOwner .. => .setOwner
  | setTimes .. => .setTimes
  | getPreferredBlockSize .. => .getPreferredBlockSize
  | getFsStats => .getFsStats

/-- The paths that a request names. -/
def paths : Request → List String
  | getFileInfo src | getListing src .. | mkdirs src .. | delete src .. | setReplication src ..
  | setPermission src .. | setOwner src .. | setTimes src .. | getPreferredBlockSize src => [src]
  | rename src dst _ => [src, dst]
  | connect .. | getServerDefaults | getFsStats => []

def fields : Request → List Wire.Piece
  | connect protocol user => Wire.pieces protocol ++ Wire.pieces user
  | getServerDefaults => []
  | getFileInfo src => Wire.pieces src
  | getListing src startAfter needLocation =>
    Wire.pieces src ++ Wire.pieces startAfter ++ Wire.pieces needLocation
  | mkdirs src masked createParent =>
    Wire.pieces src ++ Wire.pieces masked ++ Wire.pieces createParent
  | delete src recursive => Wire.pieces src ++ Wire.pieces recursive
  | rename src dst overwrite => Wire.pieces src ++ Wire.pieces dst ++ Wire.pieces overwrite
  | setReplication src replication => Wire.pieces src ++ Wire.pieces replication
  | setPermission src permission => Wire.pieces src ++ Wire.pieces permission
  | setOwner src user group => Wire.pieces src ++ Wire.pieces user ++ Wire.pieces group
  | setTimes src mtime atime => Wire.pieces src ++ Wire.pieces mtime ++ Wire.pieces atime
  | getPreferredBlockSize src => Wire.pieces src
  | getFsStats => []

def reader : Operation → Wire.Reader Request
  | .error => Wire.fail .badMessageType
  | .connect => do return connect (← Wire.read) (← Wire.read)
  | .getServerDefaults => return getServerDefaults
  | .getFileInfo => do return getFileInfo (← Wire.read)
  | .getListing => do return getListing (← Wire.read) (← Wire.read) (← Wire.read)
  | .mkdirs => do return mkdirs (← Wire.read) (← Wire.read) (← Wire.read)
  | .delete => do return delete (← Wire.read) (← Wire.read)
  | .rename => do return rename (← Wire.read) (← Wire.read) (← Wire.read)
  | .setReplication => do return setReplication (← Wire.read) (← Wire.read)
  | .setPermission => do return setPermission (← Wire.read) (← Wire.read)
  | .setOwner => do return setOwner (← Wire.read) (← Wire.read) (← Wire.read)
  | .setTimes => do return setTimes (← Wire.read) (← Wire.read) (← Wire.read)
  | .getPreferredBlockSize => do return getPreferredBlockSize (← Wire.read)
  | .getFsStats => return getFsStats

/-- The fields by name, as they are shown. -/
def shownFields : Request → List (String × String)
  | connect protocol user => [("protocol", Quoted.quote protocol), ("user", Quoted.quote user)]
  | getServerDefaults => []
  | getFileInfo src => [("src", Quoted.quote src)]
  | getListing src startAfter needLocation => [
      ("src", Quoted.quote src), ("start_after", startAfter.shown),
      ("need_location", Shown.truth needLocation)]
  | mkdirs src masked createParent => [
      ("src", Quoted.quote src), ("masked", Shown.number masked),
      ("create_parent", Shown.truth createParent)]
  | delete src recursive => [
      ("src", Quoted.quote src), ("recursive", Shown.truth recursive)]
  | rename src dst overwrite => [
      ("src", Quoted.quote src), ("dst", Quoted.quote dst),
      ("overwrite_dest", Shown.truth overwrite)]
  | setReplication src replication => [
      ("src", Quoted.quote src), ("replication", Shown.number replication)]
  | setPermission src permission => [
      ("src", Quoted.quote src), ("permission", Shown.number permission)]
  | setOwner src user group => [
      ("src", Quoted.quote src), ("username", Shown.option Quoted.quote user),
      ("groupname", Shown.option Quoted.quote group)]
  | setTimes src mtime atime => [
      ("src", Quoted.quote src), ("mtime", Shown.option Shown.number mtime),
      ("atime", Shown.option Shown.number atime)]
  | getPreferredBlockSize src => [("src", Quoted.quote src)]
  | getFsStats => []

end Request

namespace Reply

def operation : Reply → Operation
  | error .. => .error
  | connect => .connect
  | getServerDefaults .. => .getServerDefaults
  | getFileInfo .. => .getFileInfo
  | getListing .. => .getListing
  | mkdirs .. => .mkdirs
  | delete .. => .delete
  | rename => .rename
  | setReplication .. => .setReplication
  | setPermission => .setPermission
  | setOwner => .setOwner
  | setTimes => .setTimes
  | getPreferredBlockSize .. => .getPreferredBlockSize
  | getFsStats .. => .getFsStats

def fields : Reply → List Wire.Piece
  | error code message => Wire.pieces code ++ Wire.pieces message
  | getServerDefaults defaults => Wire.pieces defaults
  | getFileInfo status => Wire.pieces status
  | getListing page => Wire.pieces page
  | mkdirs result | delete result | setReplication result => Wire.pieces result
  | getPreferredBlockSize size => Wire.pieces size
  | getFsStats stats => Wire.pieces stats
  | connect | rename | setPermission | setOwner | setTimes => []

def reader : Operation → Wire.Reader Reply
  | .error => do return error (← Wire.read) (← Wire.read)
  | .connect => return connect
  | .getServerDefaults => do return getServerDefaults (← Wire.read)
  | .getFileInfo => do return getFileInfo (← Wire.read)
  | .getListing => do return getListing (← Wire.read)
  | .mkdirs => do return mkdirs (← Wire.read)
  | .delete => do return delete (← Wire.read)
  | .rename => return rename
  | .setReplication => do return setReplication (← Wire.read)
  | .setPermission => return setPermission
  | .setOwner => return setOwner
  | .setTimes => return setTimes
  | .getPreferredBlockSize => do return getPreferredBlockSize (← Wire.read)
  | .getFsStats => do return getFsStats (← Wire.read)

/-- The fields by name, as they are shown. -/
def shownFields : Reply → List (String × String)
  | error code message => [("ecode", Shown.number code), ("message", Quoted.quote message)]
  | getServerDefaults defaults => [("defaults", defaults.shown)]
  | getFileInfo status => [("fs", Shown.option FileStatus.shown status)]
  | getListing page => [("dir_list", Shown.option Page.shown page)]
  | mkdirs result | delete result | setReplication result => [("result", Shown.truth result)]
  | getPreferredBlockSize size => [("bsize", Shown.number size)]
  | getFsStats stats => [("stats", stats.shown)]
  | connect | rename | setPermission | setOwner | setTimes => []

end Reply

namespace Body

def kind : Body → Kind
  | request r => ⟨r.operation, .request⟩
  | reply r => ⟨r.operation, .reply⟩

def paths : Body → List String
  | request r => r.paths
  | reply _ => []

def fields : Body → List Wire.Piece
  | request r => r.fields
  | reply r => r.fields

def shown (b : Body) : String :=
  Shown.record b.kind.name <| match b with
    | request r => r.shownFields
    | reply r => r.shownFields

end Body

/-- A message starts with its type and its number. Both are read before the type is looked at. -/
instance : Wire Message where
  pieces m := Wire.pieces m.body.kind.number ++ Wire.pieces m.callId ++ m.body.fields
  read := do
    let number : UInt8 ← Wire.read
    let callId ← Wire.read
    match Kind.ofNumber? number with
    | none => Wire.fail .badMessageType
    | some ⟨op, .request⟩ => return ⟨callId, .request (← Request.reader op)⟩
    | some ⟨op, .reply⟩ => return ⟨callId, .reply (← Reply.reader op)⟩

end MetaFs
