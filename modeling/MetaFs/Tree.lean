import MetaFs.Numeral
/-!
A file tree as a table from paths to nodes. A path is the list of the names from the root, and the
root itself is the empty path.
-/

namespace MetaFs

/-- A name is a string of bytes, which need not be text. -/
abbrev Name := List UInt8

abbrev TreePath := List Name

/-- A moment in seconds and nanoseconds. -/
structure Moment where
  seconds : Int := 0
  nanos : Nat := 0
deriving DecidableEq, Repr

def Moment.ofMillis (n : Nat) : Moment :=
  ⟨n / 1000, n % 1000 * 1000000⟩

/-- Milliseconds as they are reported: not negative, and at most what 63 bits hold. -/
def Moment.millis (t : Moment) : UInt64 :=
  let bound (n : Int) : Int := max (-Numeral.signedBound) (min n (Numeral.signedBound - 1))
  UInt64.ofNat (bound (bound (t.seconds * 1000) + t.nanos / 1000000)).toNat

/-- A special node is a pipe, a socket or a device. -/
inductive NodeKind where
  | directory
  | file (size : Nat)
  | special (size : Nat)
  | symlink (target : Name)
deriving DecidableEq, Repr

structure Node where
  kind : NodeKind
  mode : Nat
  uid : Nat := 0
  gid : Nat := 0
  modified : Moment := {}
  accessed : Moment := {}
deriving DecidableEq, Repr

def Node.isDirectory (n : Node) : Bool :=
  n.kind = .directory

def Node.isFile (n : Node) : Bool :=
  match n.kind with
  | .file _ => true
  | _ => false

/-- What is in a sticky directory is taken out of it by an owner only. -/
def Node.isSticky (n : Node) : Bool :=
  n.mode &&& 0o1000 != 0

/-- What is made in such a directory belongs to the group of the directory. -/
def Node.givesGroup (n : Node) : Bool :=
  n.mode &&& 0o2000 != 0

/-- The same node with another time of its last change. -/
def Node.dated (time : Moment) (n : Node) : Node :=
  { n with modified := time }

/-- A tree also knows the moments at which its directories will change, one after the other. -/
structure Tree where
  entries : List (TreePath × Node) := [([], ⟨.directory, 0o755, 0, 0, {}, {}⟩)]
  clock : Nat → Moment := fun _ => {}

namespace Tree

def get? (t : Tree) (path : TreePath) : Option Node :=
  t.entries.lookup path

/-- Puts a node at a path, in place of the one that may be there. -/
def put (t : Tree) (path : TreePath) (node : Node) : Tree :=
  { t with entries := (path, node) :: t.entries.filter (fun entry => entry.1 != path) }

/-- Takes the node at a path away, but nothing below it. -/
def erase (t : Tree) (path : TreePath) : Tree :=
  { t with entries := t.entries.filter (fun entry => entry.1 != path) }

/-- Whether a path lies below another one. -/
def isBelow (ancestor path : TreePath) : Bool :=
  ancestor.isPrefixOf path && ancestor != path

/-- The name of an entry of a directory by the entry's path. -/
def childName? (directory path : TreePath) : Option Name :=
  if path.dropLast = directory then path.getLast? else none

/-- The names in a directory in the order of their bytes. -/
def names (t : Tree) (directory : TreePath) : List Name :=
  (t.entries.filterMap fun entry => childName? directory entry.1).mergeSort

/-- Moves a node and all that is below it to another path. -/
def move (t : Tree) (source destination : TreePath) : Tree :=
  { t with
    entries := t.entries.map fun (path, node) =>
      if source.isPrefixOf path then (destination ++ path.drop source.length, node)
      else (path, node) }

/-- The moment of the next change. -/
def now (t : Tree) : Moment :=
  t.clock 0

/-- Dates the node at a path to the moment, which is over then. -/
def touch (t : Tree) (path : TreePath) : Tree where
  entries := t.entries.map fun entry =>
    (entry.1, if entry.1 = path then entry.2.dated t.now else entry.2)
  clock n := t.clock (n + 1)

/-! A directory is dated when its entries change. -/

def link (t : Tree) (path : TreePath) (node : Node) : Tree :=
  (t.put path node).touch path.dropLast

def unlink (t : Tree) (path : TreePath) : Tree :=
  (t.erase path).touch path.dropLast

/-- Moves an entry over what may be at the other path. -/
def relink (t : Tree) (source destination : TreePath) : Tree :=
  (((t.erase destination).move source destination).touch source.dropLast).touch destination.dropLast

end Tree

end MetaFs
