import MetaFs.Numeral
/-!
The command line of the server: an address, a directory to export, and two options with a number.
-/

namespace MetaFs

structure Arguments where
  address : String
  exportDirectory : String
  listingLimit : Nat
  blockSize : Nat
deriving DecidableEq, Repr

namespace CommandLine

/-- Why a command line is not accepted; asking for help counts among the reasons. -/
inductive UsageError where
  | missingArgument
  | unknownArgument
  | invalidValue
  | badNumber
  | repeatedOption
  | unneededValue
  | help
deriving DecidableEq, Repr

inductive Place where
  | address
  | exportDirectory
  | listingLimit
  | blockSize
deriving DecidableEq, Repr

def defaultListingLimit : Nat := 1000
def defaultBlockSize : Nat := 134217728

/-- What has been read. A value is looked at only when the next argument has been taken, and an
option waits for its value. -/
structure Reading where
  address : Option String := none
  exportDirectory : Option String := none
  listingLimit : Option Nat := none
  blockSize : Option Nat := none
  pending : Option (Place × Option String) := none
  positions : List Place := [.address, .exportDirectory]
  plain : Bool := false

def option? (name : List Char) : Option Place :=
  if name = "listing-limit".toList then some .listingLimit
  else if name = "block-size".toList then some .blockSize
  else none

def assign (r : Reading) (place : Place) (value : String) : Except UsageError Reading :=
  match place with
  | .address => .ok { r with address := some value }
  | .exportDirectory =>
    if value.isEmpty then .error .invalidValue else .ok { r with exportDirectory := some value }
  | .listingLimit =>
    if r.listingLimit.isSome then .error .repeatedOption
    else
      match Numeral.signed64? value.toList with
      | some n =>
        if 1 ≤ n && n < UInt32.size then .ok { r with listingLimit := some n.toNat }
        else .error .badNumber
      | none => .error .badNumber
  | .blockSize =>
    if r.blockSize.isSome then .error .repeatedOption
    else
      match Numeral.unsigned? UInt64.size value with
      | some n => .ok { r with blockSize := some n }
      | none => .error .badNumber

/-- Looks at the value that was kept, if there is one. -/
def settle (r : Reading) : Except UsageError Reading :=
  match r.pending with
  | none => .ok r
  | some (_, none) => .error .invalidValue
  | some (place, some value) => assign { r with pending := none } place value

def takeOption (r : Reading) (text : List Char) : Except UsageError Reading := do
  let name := text.takeWhile (· ≠ '=')
  let value := (text.dropWhile (· ≠ '=')).drop 1
  let hasValue := text.contains '='
  match option? name with
  | some place =>
    let r ← settle r
    if hasValue then assign r place (String.ofList value)
    else return { r with pending := some (place, none) }
  | none =>
    -- What is unknown is reported before a value that waits is looked at.
    if name ≠ "help".toList then throw .unknownArgument
    if hasValue then throw .unneededValue
    let _ ← settle r
    throw .help

def takePosition (r : Reading) (value : String) : Except UsageError Reading := do
  match r.positions with
  | [] => throw .unknownArgument
  | place :: rest =>
    let r ← settle r
    return { r with pending := some (place, some value), positions := rest }

def takeArgument (r : Reading) (argument : String) : Except UsageError Reading := do
  if r.plain then takePosition r argument
  else
    match argument.toList with
    | ['-', '-'] => return { r with plain := true }
    | '-' :: '-' :: text => takeOption r text
    | '-' :: 'h' :: _ =>
      let _ ← settle r
      throw .help
    | '-' :: _ :: _ => throw .unknownArgument
    | _ =>
      match r.pending with
      | some (place, none) => return { r with pending := some (place, some argument) }
      | _ => takePosition r argument

def finish (r : Reading) : Except UsageError Arguments := do
  let r ← settle r
  match r.address, r.exportDirectory with
  | some address, some exportDirectory =>
    return { address, exportDirectory
             listingLimit := r.listingLimit.getD defaultListingLimit
             blockSize := r.blockSize.getD defaultBlockSize }
  | _, _ => throw .missingArgument

def parse (arguments : List String) : Except UsageError Arguments := do
  finish (← arguments.foldlM takeArgument {})

end CommandLine

end MetaFs
