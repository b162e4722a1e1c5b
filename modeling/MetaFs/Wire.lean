import MetaFs.Utf8
/-!
The binary form of values: little-endian numbers, texts and byte strings with their length before
them, optional values behind a flag, sequences behind a count.
-/

namespace MetaFs.Wire

/-- Why bytes are no value. -/
inductive ReadError where
  | endOfInput
  | missingBytes (declared present : Nat)
  | badBoolean
  | badText
  | badFileType
  | badMessageType
deriving DecidableEq, Repr

def ReadError.message : ReadError → String
  | endOfInput => "failed to fill whole buffer"
  | missingBytes declared present =>
    s!"declared length {declared} but only {present} bytes follow"
  | badBoolean => "Invalid boolean"
  | badText => "Invalid UTF-8 sequence"
  | badFileType => "Invalid file type"
  | badMessageType => "Invalid message type"

/-- Whether more bytes could have helped. -/
def ReadError.isTruncation : ReadError → Bool
  | endOfInput | missingBytes .. => true
  | _ => false

/-- The class of an error. -/
inductive IoKind where
  | unexpectedEnd
  | invalidData
  | invalidInput
deriving DecidableEq, Repr

def IoKind.name : IoKind → String
  | unexpectedEnd => "UnexpectedEof"
  | invalidData => "InvalidData"
  | invalidInput => "InvalidInput"

def ReadError.kind (e : ReadError) : IoKind :=
  if e.isTruncation then .unexpectedEnd else .invalidData

/-- A reader takes what it needs from the front of the input. -/
abbrev Reader := StateT (List UInt8) (Except ReadError)

/-- Part of a written value. A text carries its length in two bytes, so that it cannot be written
when it is longer than that. -/
inductive Piece where
  | number (width n : Nat)
  | raw (bytes : List UInt8)
  | text (text : String)

/-- The longest text, in bytes. -/
def textLimit : Nat := 65535

/-- Why a value has no binary form. -/
inductive WriteError where
  | overlongText
deriving DecidableEq, Repr

def WriteError.message : WriteError → String
  | overlongText => "String too long to encode"

def WriteError.kind : WriteError → IoKind
  | overlongText => .invalidInput

def littleEndian : Nat → Nat → List UInt8
  | 0, _ => []
  | width + 1, n => UInt8.ofNat n :: littleEndian width (n / 256)

def value (bytes : List UInt8) : Nat :=
  bytes.foldr (fun b n => b.toNat + 256 * n) 0

/-- The bytes of one piece. -/
def Piece.encode : Piece → Except WriteError (List UInt8)
  | number width n => .ok (littleEndian width n)
  | raw bytes => .ok bytes
  | text s =>
    if textLimit < s.utf8ByteSize then .error .overlongText
    else .ok (littleEndian 2 s.utf8ByteSize ++ Utf8.encode s.toList)

/-- The number of bytes of a piece, as the writer counts them. -/
def Piece.size : Piece → Nat
  | number width _ => width
  | raw bytes => bytes.length
  | text s => 2 + s.utf8ByteSize

/-- What came out of writing, and how many bytes were counted or what stopped it. -/
structure Written where
  bytes : List UInt8
  outcome : Except WriteError Nat

/-- Writes pieces in turn up to the first that cannot be written. -/
def write : List Piece → Written
  | [] => ⟨[], .ok 0⟩
  | piece :: rest =>
    match piece.encode with
    | .error e => ⟨[], .error e⟩
    | .ok bytes =>
      let written := write rest
      ⟨bytes ++ written.bytes, written.outcome.map (piece.size + ·)⟩

def take (n : Nat) : Reader (List UInt8) := fun input =>
  let bytes := input.take n
  if bytes.length = n then .ok (bytes, input.drop n) else .error .endOfInput

/-- Bytes whose number was read before them. -/
def takeDeclared (n : Nat) : Reader (List UInt8) := fun input =>
  let bytes := input.take n
  if bytes.length = n then .ok (bytes, input.drop n)
  else .error (.missingBytes n bytes.length)

def number (width : Nat) : Reader Nat := do
  return value (← take width)

def fail {α : Type} (e : ReadError) : Reader α := fun _ => .error e

end MetaFs.Wire

namespace MetaFs

open Wire

/-- Values that have a binary form. -/
class Wire (α : Type) where
  pieces : α → List Piece
  read : Reader α

namespace Wire

instance : Wire UInt8 where
  pieces n := [.number 1 n.toNat]
  read := do return UInt8.ofNat (← number 1)

instance : Wire UInt16 where
  pieces n := [.number 2 n.toNat]
  read := do return UInt16.ofNat (← number 2)

instance : Wire UInt32 where
  pieces n := [.number 4 n.toNat]
  read := do return UInt32.ofNat (← number 4)

instance : Wire UInt64 where
  pieces n := [.number 8 n.toNat]
  read := do return UInt64.ofNat (← number 8)

instance : Wire Bool where
  pieces b := [.number 1 b.toNat]
  read := do
    match ← number 1 with
    | 0 => return false
    | 1 => return true
    | _ => fail .badBoolean

instance : Wire String where
  pieces s := [.text s]
  read := do
    let length ← number 2
    match Utf8.decode (← takeDeclared length) with
    | .ok text => return String.ofList text
    | .error _ => fail .badText

instance {α : Type} [Wire α] : Wire (Option α) where
  pieces
    | none => pieces false
    | some a => pieces true ++ pieces a
  read := do
    let present : Bool ← read
    if present then return some (← read) else return none

/-- Reads so many values and puts them after those read before, which are in reverse. -/
def readMany {α : Type} [Wire α] : Nat → List α → Reader (List α)
  | 0, done => return done.reverse
  | n + 1, done => do
    let a ← read
    readMany n (a :: done)

instance {α : Type} [Wire α] : Wire (List α) where
  pieces as := .number 4 as.length :: as.flatMap pieces
  read := do readMany (← number 4) []

def encode {α : Type} [Wire α] (a : α) : Written :=
  write (pieces a)

/-- The bytes of a value, if all of it can be written. -/
def encoded {α : Type} [Wire α] (a : α) : Except WriteError (List UInt8) :=
  let written := encode a
  written.outcome.map fun _ => written.bytes

/-- Reads a value from the front of the bytes and returns what is left. -/
def decode {α : Type} [Wire α] (bytes : List UInt8) : Except ReadError (α × List UInt8) :=
  (read : Reader α).run bytes

end Wire

end MetaFs
