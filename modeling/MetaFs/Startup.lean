import MetaFs.Address
import MetaFs.CommandLine
import MetaFs.FileSystem
import MetaFs.Url.Ipv6
import MetaFs.Utf8
/-!
What the server checks before it serves: the exported directory, which is made if it is missing, and
the address to listen on.
-/

namespace MetaFs.Startup

/-- The longest path of a socket, with the byte after it. -/
def socketPathLimit : Nat := 108

/-- The path that a text stands for, from the root or from the current directory. -/
def absolute (current : TreePath) (text : String) : TreePath :=
  let bytes := Utf8.encode text.toList
  if bytes.head? = some 47 then FileSystem.namesOf bytes
  else current ++ FileSystem.namesOf bytes

/-- The node that a path leads to, or nothing where there is none. -/
def find (t : Tree) (who : Caller) (path : TreePath) : Except Error (Option Node) :=
  match FileSystem.locate t who true path with
  | .ok place => .ok (t.get? place)
  | .error fault => if fault = .errno .noent then .ok none else .error fault.systemError

/-- Makes the directories on a path that are missing. -/
def makeAll (t : Tree) (who : Caller) (above : TreePath) : List Name → Except Error Tree
  | [] => .ok t
  | name :: rest => do
    let here := above ++ [name]
    match ← find t who here with
    | some _ => makeAll t who here rest
    | none =>
      match FileSystem.makeDirectory t who here 0o755 with
      | .ok made => makeAll made who here rest
      | .error fault => throw fault.systemError

/-- The exported directory has to be a directory in the end. -/
def prepare (t : Tree) (who : Caller) (path : TreePath) : Except Error Tree × Tree :=
  let made : Except Error Tree := match find t who path with
    | .ok (some _) => .ok t
    | .ok none => makeAll t who [] path
    | .error e => .error e
  match made with
  | .error e => (.error e, t)
  | .ok after =>
    match find after who path with
    | .ok (some node) =>
      if node.isDirectory then (.ok after, after)
      else (.error (.ofText "export directory must be a directory"), after)
    | .ok none => (.error (.ofSystem Errno.noent.number), after)
    | .error e => (.error e, after)

/-- Only the addresses of the machine itself can be listened on. -/
def checkNetwork (host port : String) : Except Error Unit :=
  match Numeral.unsigned? UInt16.size port with
  | none => .error (.ofText "invalid port value")
  | some _ =>
    match (Url.parts (· = '.') host.toList).mapM Url.Ipv6.byte? with
    | some [a, b, c, d] =>
      if a = 127 || [a, b, c, d] = [0, 0, 0, 0] then .ok ()
      else .error (.ofSystem Errno.addrnotavail.number)
    | _ => .ok ()

/-- A socket needs a directory to be in, and nothing in its place. -/
def checkSocket (t : Tree) (who : Caller) (current : TreePath) (text : String) :
    Except Error Unit := do
  let bytes := Utf8.encode text.toList
  if bytes.contains 0 then throw (.ofText "paths must not contain interior null bytes")
  if socketPathLimit ≤ bytes.length then throw (.ofText "path must be shorter than SUN_LEN")
  let path := absolute current text
  if path.isEmpty then throw (.ofSystem Errno.addrinuse.number)
  let placed := do
    let (parent, name) ← FileSystem.locateParent t who path
    FileSystem.checkName name
    if (t.get? (parent ++ [name])).isSome then FileSystem.fail .addrinuse
    FileSystem.checkChange t who parent
  match placed with
  | .ok () => return
  | .error fault => throw fault.systemError

/-- Why an address cannot be served, if it cannot. -/
def checkEndpoint (t : Tree) (who : Caller) (current : TreePath) (text : String) :
    Except Error Unit :=
  match Endpoint.parse? text with
  | none => .error (.ofText "Invalid protocol or address")
  | some endpoint =>
    if endpoint.protocol = "tcp" then checkNetwork endpoint.address endpoint.port
    else if endpoint.protocol = "unix" then
      checkSocket t who current (endpoint.address ++ endpoint.port)
    else .error (.ofText "Protocol not supported")

/-- The tree that is ready to be exported, and the tree as the checks left it. -/
def run (t : Tree) (who : Caller) (current : TreePath) (args : Arguments) :
    Except Error Tree × Tree :=
  match prepare t who (absolute current args.exportDirectory) with
  | (.ok ready, after) =>
    match checkEndpoint ready who current args.address with
    | .ok () => (.ok ready, after)
    | .error e => (.error e, after)
  | failed => failed

end MetaFs.Startup
