import MetaFs.Error
import MetaFs.Numeral
/-!
Network addresses: a host with a port, and the addresses that a server listens on, whose three
parts are divided by exclamation marks.
-/

namespace MetaFs

structure Address where
  host : String
  port : UInt16
deriving DecidableEq, Repr

namespace Address

def defaultPort : UInt16 := 8020

/-- The given port, unless it is zero or absent. -/
def portOr (given : Option UInt16) : UInt16 :=
  match given with
  | some port => if port = 0 then defaultPort else port
  | none => defaultPort

/-- A host alone, or a host and a port after the first colon. -/
def parse (text : String) (given : Option UInt16) : Except Error Address :=
  let chars := text.toList
  let host := chars.takeWhile (· ≠ ':')
  match chars.dropWhile (· ≠ ':') with
  | [] => .ok ⟨text, portOr given⟩
  | _ :: rest =>
    let portText := String.ofList rest
    match Numeral.unsigned? UInt16.size portText with
    | some port =>
      if port = 0 then .error (badPort portText)
      else .ok ⟨String.ofList host, UInt16.ofNat port⟩
    | none => .error (badPort portText)
where
  badPort (text : String) : Error :=
    ⟨.inval, s!"parse_rpc_addr: invalid port string {text}", none⟩

def display (address : Address) : String :=
  s!"{address.host}:{address.port}"

end Address

/-- Where a server listens: a protocol, and an address and a port in that protocol. -/
structure Endpoint where
  protocol : String
  address : String
  port : String
deriving DecidableEq, Repr

namespace Endpoint

def split : List Char → List Char × List (List Char)
  | [] => ([], [])
  | c :: rest =>
    let (first, more) := split rest
    if c = '!' then ([], first :: more) else (c :: first, more)

/-- The first three parts; further ones do not count. -/
def parse? (text : String) : Option Endpoint :=
  match split text.toList with
  | (protocol, address :: port :: _) =>
    some ⟨String.ofList protocol, String.ofList address, String.ofList port⟩
  | _ => none

end Endpoint

end MetaFs
