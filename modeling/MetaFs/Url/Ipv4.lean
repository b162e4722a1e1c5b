import MetaFs.Numeral
import MetaFs.Url.Charset
/-!
IPv4 addresses as URLs write them: one to four numbers, in decimal, octal or hexadecimal, the last
of which fills what is left of the 32 bits.
-/

namespace MetaFs.Url.Ipv4

/-- The value of a number; a number without digits after its sign for the base is zero. -/
def number? : List Char → Option Nat
  | [] => none
  | '0' :: 'x' :: digits | '0' :: 'X' :: digits => Numeral.continue? 16 0 digits
  | '0' :: c :: digits => Numeral.continue? 8 0 (c :: digits)
  | digits => Numeral.digits? 10 digits

/-- The parts of a host name, without an empty one at the end. -/
def labels (host : List Char) : List (List Char) :=
  let all := parts (· = '.') host
  if 1 < all.length && all.getLast? = some [] then all.dropLast else all

/-- Whether a host name has to be an address: its last part is a number, or looks like one. -/
def endsInNumber (host : List Char) : Bool :=
  match (labels host).getLast? with
  | none | some [] => false
  | some last => last.all (fun c => '0' ≤ c && c ≤ '9') || (number? last).isSome

/-- The value of a one in the byte at a place, where the lowest byte is at place 0. -/
def weight (place : Nat) : Nat :=
  Nat.pow 256 place

def combine : List Nat → Nat → Option Nat
  | [], _ => none
  | [last], place => if last < weight (place + 1) then some last else none
  | n :: rest, place =>
    if n < 256 then (combine rest (place - 1)).map (n * weight place + ·) else none

def parse? (host : List Char) : Option Nat := do
  let names := labels host
  if 4 < names.length then none
  let numbers ← names.mapM number?
  combine numbers 3

def display (address : Nat) : List Char :=
  let byte (place : Nat) := toString (address / weight place % 256)
  (".".intercalate [byte 3, byte 2, byte 1, byte 0]).toList

end MetaFs.Url.Ipv4
