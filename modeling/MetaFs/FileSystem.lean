import MetaFs.Error
import MetaFs.Tree
/-!
The calls of a file system on a tree. A call walks its path from the root and follows the symbolic
links on the way; the order of the checks decides which of several failures is reported.
-/

namespace MetaFs

/-- Why a call fails. -/
inductive Fault where
  | zeroByte
  | errno (e : Errno)
deriving DecidableEq

namespace Fault

/-- The error of a call whose failure is told by the system. -/
def systemError : Fault → Error
  | zeroByte => .ofText "file name contained an unexpected NUL byte"
  | errno e => .ofSystem e.number

/-- The error of a call whose failure is told by its number alone. -/
def plainError : Fault → Error
  | zeroByte => .ofErrno .inval
  | errno e => .ofErrno e

end Fault

/-- Who makes the calls. A privileged caller passes all permission bits. -/
structure Caller where
  uid : Nat := 0
  gid : Nat := 0
  privileged : Bool := true

namespace Caller

def mayRead : Nat := 4
def mayWrite : Nat := 2
def maySearch : Nat := 1

/-- The permission bits that apply to the caller have to hold all that are asked for. -/
def allows (who : Caller) (node : Node) (bits : Nat) : Bool :=
  let shift := if who.uid = node.uid then 6 else if who.gid = node.gid then 3 else 0
  who.privileged || (node.mode >>> shift) &&& bits == bits

def owns (who : Caller) (node : Node) : Bool :=
  who.privileged || who.uid = node.uid

end Caller

namespace FileSystem

/-- The longest name, the longest path with its end, and the most links followed on one path. -/
def nameLimit : Nat := 255
def pathLimit : Nat := 4096
def linkLimit : Nat := 40

def fail {α : Type} (e : Errno) : Except Fault α :=
  .error (.errno e)

/-- The names of a path text; repeated slashes count once. -/
def namesOf (text : Name) : List Name :=
  let slash (bytes : List UInt8) (groups : List Name) : List Name :=
    if bytes.isEmpty then groups else bytes :: groups
  let (first, rest) := text.foldr (fun b (current, groups) =>
    if b = 47 then ([], slash current groups) else (b :: current, groups)) ([], [])
  slash first rest

/-- What is refused before any look at the tree. -/
def check (path : TreePath) : Except Fault Unit :=
  if path.any (·.contains 0) then .error .zeroByte
  else if pathLimit < path.foldl (fun n name => n + name.length + 1) 1 then fail .nametoolong
  else .ok ()

/-- A directory that the caller may search. -/
def search (t : Tree) (who : Caller) (directory : TreePath) : Except Fault Unit :=
  match t.get? directory with
  | none => fail .noent
  | some node =>
    if !node.isDirectory then fail .notdir
    else if who.allows node Caller.maySearch then .ok ()
    else fail .acces

/-- The place of the node that names lead to from a directory. A link at the end is followed only
if it is asked for. -/
def walk (t : Tree) (who : Caller) (followLast : Bool) (links : Nat) (here : TreePath) :
    List Name → Except Fault TreePath
  | [] => .ok here
  | name :: rest => do
    search t who here
    if name = [46] then walk t who followLast links here rest
    else if name = [46, 46] then walk t who followLast links here.dropLast rest
    else if nameLimit < name.length then fail .nametoolong
    else
      let there := here ++ [name]
      match t.get? there with
      | none => fail .noent
      | some node =>
        match node.kind with
        | .symlink target =>
          if rest.isEmpty && !followLast then .ok there
          else
            -- The names of the target come before those that are left.
            match links with
            | 0 => fail .loop
            | links + 1 =>
              let start := if target.head? = some 47 then [] else here
              walk t who followLast links start (namesOf target ++ rest)
        | .file _ | .special _ => if rest.isEmpty then .ok there else fail .notdir
        | .directory => walk t who followLast links there rest
termination_by names => (links, names.length)

def locate (t : Tree) (who : Caller) (followLast : Bool) (path : TreePath) :
    Except Fault TreePath := do
  check path
  walk t who followLast linkLimit [] path

/-- The directory and the name of a path that may lead to nothing yet. -/
def locateParent (t : Tree) (who : Caller) (path : TreePath) : Except Fault (TreePath × Name) := do
  check path
  match path.getLast? with
  | none => fail .busy
  | some name =>
    let parent ← walk t who true linkLimit [] path.dropLast
    search t who parent
    return (parent, name)

def checkName (name : Name) : Except Fault Unit :=
  if nameLimit < name.length then fail .nametoolong else .ok ()

/-- Whether the caller may change the entries of a directory. -/
def checkChange (t : Tree) (who : Caller) (directory : TreePath) : Except Fault Unit :=
  match t.get? directory with
  | some node =>
    if who.allows node (Caller.mayWrite + Caller.maySearch) then .ok () else fail .acces
  | none => fail .noent

/-- Whether the caller may take the entry at a place out of its directory. Out of a sticky directory
only the owner of the directory and the owner of the entry may. -/
def checkTake (t : Tree) (who : Caller) (place : TreePath) : Except Fault Unit := do
  checkChange t who place.dropLast
  match t.get? place.dropLast, t.get? place with
  | some directory, some node =>
    if directory.isSticky && !who.owns directory && !who.owns node then fail .perm
  | _, _ => return

/-- The node itself, not what it links to. -/
def status (t : Tree) (who : Caller) (path : TreePath) : Except Fault Node := do
  match t.get? (← locate t who false path) with
  | some node => return node
  | none => fail .noent

/-- The names in a directory. -/
def list (t : Tree) (who : Caller) (path : TreePath) : Except Fault (List Name) := do
  let place ← locate t who true path
  match t.get? place with
  | none => fail .noent
  | some node =>
    if !node.isDirectory then fail .notdir
    else if who.allows node Caller.mayRead then return t.names place
    else fail .acces

/-- The group of what a caller makes in a directory. -/
def groupIn (t : Tree) (who : Caller) (directory : TreePath) : Nat :=
  match t.get? directory with
  | some node => if node.givesGroup then node.gid else who.gid
  | none => who.gid

/-- Makes an empty directory with this mode. -/
def makeDirectory (t : Tree) (who : Caller) (path : TreePath) (mode : Nat) : Except Fault Tree := do
  let (parent, name) ← locateParent t who path
  checkName name
  if (t.get? (parent ++ [name])).isSome then fail .exist
  checkChange t who parent
  return t.link (parent ++ [name])
    { kind := .directory
      mode := mode % 0o10000
      uid := who.uid
      gid := groupIn t who parent
      modified := t.now
      accessed := t.now }

/-- The place of an existing entry that the caller may take away, and its node. -/
def locateEntry (t : Tree) (who : Caller) (path : TreePath) : Except Fault (TreePath × Node) := do
  let (parent, name) ← locateParent t who path
  checkName name
  match t.get? (parent ++ [name]) with
  | none => fail .noent
  | some node =>
    checkTake t who (parent ++ [name])
    return (parent ++ [name], node)

def removeFile (t : Tree) (who : Caller) (path : TreePath) : Except Fault Tree := do
  let (place, node) ← locateEntry t who path
  if node.isDirectory then fail .isdir
  return t.unlink place

def removeDirectory (t : Tree) (who : Caller) (path : TreePath) : Except Fault Tree := do
  let (place, node) ← locateEntry t who path
  if !node.isDirectory then fail .notdir
  if !(t.names place).isEmpty then fail .notempty
  return t.unlink place

/-- A call that may fail after it has changed the tree. -/
abbrev Change := ExceptT Fault (StateM Tree)

def ofExcept {α : Type} : Except Fault α → Change α
  | .ok a => return a
  | .error e => throw e

/-- Removes what is in a directory and then the directory, which is at this very place. No tree is
deeper than the number of its entries. -/
def removeBelow (who : Caller) : Nat → TreePath → Change Unit
  | 0, _ => return
  | depth + 1, place => do
    let t ← (get : StateM Tree Tree)
    match t.get? place with
    | none => return
    | some node =>
      if !who.allows node Caller.mayRead then throw (.errno .acces)
      for name in t.names place do
        let t ← (get : StateM Tree Tree)
        let child := place ++ [name]
        ofExcept (search t who place)
        if (t.get? child).any Node.isDirectory then removeBelow who depth child
        else
          ofExcept (checkTake t who child)
          modify (·.unlink child)
      let t ← (get : StateM Tree Tree)
      ofExcept (checkTake t who place)
      modify (·.unlink place)

/-- Removes a directory with all that is in it. -/
def removeAll (who : Caller) (path : TreePath) : Change Unit := do
  let t ← (get : StateM Tree Tree)
  let (parent, name) ← ofExcept (locateParent t who path)
  ofExcept (checkName name)
  if (t.get? (parent ++ [name])).isNone then throw (.errno .noent)
  removeBelow who t.entries.length (parent ++ [name])

/-- Moves an entry to another path, in place of what may be there. -/
def rename (t : Tree) (who : Caller) (source destination : TreePath) : Except Fault Tree := do
  check source
  check destination
  let (oldParent, oldName) ← locateParent t who source
  let (newParent, newName) ← locateParent t who destination
  let old := oldParent ++ [oldName]
  let new := newParent ++ [newName]
  checkName oldName
  match t.get? old with
  | none => fail .noent
  | some node =>
    checkName newName
    -- Nothing moves into itself, nor onto a directory that it is in.
    if Tree.isBelow old new then fail .inval
    if Tree.isBelow new old then fail .notempty
    if old = new then return t
    checkTake t who old
    checkTake t who new
    let target := t.get? new
    match target with
    | none => pure ()
    | some other =>
      if node.isDirectory && !other.isDirectory then fail .notdir
      if !node.isDirectory && other.isDirectory then fail .isdir
    -- A directory that changes its parent has an entry for it that changes too.
    if node.isDirectory && oldParent != newParent && !who.allows node Caller.mayWrite then
      fail .acces
    if target.isSome && !(t.names new).isEmpty then fail .notempty
    return t.relink old new

/-- Changes the node at a place. -/
def update (t : Tree) (place : TreePath) (f : Node → Except Fault Node) : Except Fault Tree := do
  match t.get? place with
  | none => fail .noent
  | some node => return t.put place (← f node)

def setMode (t : Tree) (who : Caller) (path : TreePath) (mode : Nat) : Except Fault Tree := do
  update t (← locate t who true path) fun node =>
    if who.owns node then .ok { node with mode := mode % 0o10000 } else fail .perm

/-- The mode of a file that has changed hands: it no longer runs as its owner, nor as its group if
the group may run it. -/
def withoutSetId (node : Node) : Nat :=
  if node.isDirectory then node.mode
  else
    let mode := node.mode &&& 0o3777
    if mode &&& 0o010 = 0 then mode else mode &&& 0o1777

def setOwner (t : Tree) (who : Caller) (path : TreePath) (uid gid : Option Nat) :
    Except Fault Tree := do
  update t (← locate t who true path) fun node =>
    let uidFits := match uid with
      | none => true
      | some n => who.privileged || (who.uid = node.uid && n = node.uid)
    let gidFits := match gid with
      | none => true
      | some n => who.privileged || (who.uid = node.uid && (n = node.gid || n = who.gid))
    if uidFits && gidFits then
      .ok { node with
        uid := uid.getD node.uid, gid := gid.getD node.gid, mode := withoutSetId node }
    else fail .perm

/-- Sets the times of the node itself, not of what it links to. -/
def setTimes (t : Tree) (who : Caller) (path : TreePath) (modified accessed : Moment) :
    Except Fault Tree := do
  update t (← locate t who false path) fun node =>
    if who.owns node then .ok { node with modified, accessed } else fail .perm

end FileSystem

end MetaFs
