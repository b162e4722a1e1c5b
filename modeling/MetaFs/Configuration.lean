import MetaFs.Error
import MetaFs.Numeral
import MetaFs.Blank
/-!
Settings by key. Some keys have an old name, which means the same setting.
-/

namespace MetaFs

namespace Key

def defaultFs : String := "fs.defaultFS"
def nameserviceId : String := "dfs.nameservice.id"
def rpcAddress : String := "dfs.namenode.rpc-address"
def umask : String := "fs.permissions.umask-mode"
def cacheExpiry : String := "dfs.client.write.exclude.nodes.cache.expiry.interval.millis"

/-- Old names and what they are called now. -/
def renamed : List (String × String) := [
  ("fs.default.name", defaultFs),
  ("dfs.umaskmode", umask),
  ("dfs.socket.timeout", "dfs.client.socket-timeout"),
  ("dfs.write.packet.size", "dfs.client-write-packet-size")]

def modern (key : String) : String :=
  (renamed.lookup key).getD key

end Key

/-- The last value set for each key, under the key's modern name. -/
structure Configuration where
  entries : List (String × String) := []

namespace Configuration

def set (key value : String) (conf : Configuration) : Configuration :=
  let name := Key.modern key
  ⟨(name, value) :: conf.entries.filter (fun entry => entry.1 != name)⟩

def ofList (settings : List (String × String)) : Configuration :=
  settings.foldl (fun conf (key, value) => conf.set key value) {}

def get? (key : String) (conf : Configuration) : Option String :=
  conf.entries.lookup (Key.modern key)

def size (conf : Configuration) : Nat :=
  conf.entries.length

def isEmpty (conf : Configuration) : Bool :=
  conf.entries.isEmpty

/-- A number of 64 bits with its sign; blanks around it do not count. -/
def int? (key : String) (conf : Configuration) : Except Error (Option Int) :=
  match conf.get? key with
  | none => .ok none
  | some value =>
    match Numeral.signed64? (Blank.trim value.toList) with
    | some n => .ok (some n)
    | none => .error ⟨.inval,
        s!"failed to parse the value '{value}' of key {key} as an integer", none⟩

def intOr (key : String) (default : Int) (conf : Configuration) : Except Error Int := do
  return (← conf.int? key).getD default

end Configuration

end MetaFs
