import MetaFs.Utf8
/-!
Percent-encoding: a byte written as a percent sign and two hexadecimal digits.
-/

namespace MetaFs.Percent

def upperDigit (n : Nat) : Char :=
  if n < 10 then Char.ofNat (48 + n) else Char.ofNat (55 + n)

def escape (b : UInt8) : List Char :=
  ['%', upperDigit (b.toNat / 16), upperDigit (b.toNat % 16)]

/-- Escapes the characters that `special` names and everything that is not ASCII. -/
def encode (special : Char → Bool) (text : List Char) : List Char :=
  text.flatMap fun c =>
    if c.toNat < 128 && !special c then [c] else (String.utf8EncodeChar c).flatMap escape

def digitValue? (c : Char) : Option Nat :=
  let n := c.toNat
  if 48 ≤ n && n ≤ 57 then some (n - 48)
  else if 65 ≤ n && n ≤ 70 then some (n - 55)
  else if 97 ≤ n && n ≤ 102 then some (n - 87)
  else none

/-- A percent sign without two digits after it stands for itself. -/
def decode : List Char → List UInt8
  | [] => []
  | '%' :: a :: b :: rest =>
    match digitValue? a, digitValue? b with
    | some x, some y => UInt8.ofNat (x * 16 + y) :: decode rest
    | _, _ => 37 :: decode (a :: b :: rest)
  | c :: rest => String.utf8EncodeChar c ++ decode rest

/-- The second digit of the escape of a slash or of a percent sign. -/
def isKept (digit : Char) : Bool :=
  digit = 'F' || digit = 'f' || digit = '5'

/-- Cuts a text at the escapes of a slash and of a percent sign: the text before the first one, and
for each of them its digits in upper case and the text up to the next. -/
def pieces : List Char → List Char × List (List Char × List Char)
  | [] => ([], [])
  | '%' :: '2' :: d :: rest =>
    if isKept d then
      let (next, more) := pieces rest
      ([], (['2', d.toUpper], next) :: more)
    else
      let (piece, more) := pieces ('2' :: d :: rest)
      ('%' :: piece, more)
  | c :: rest =>
    let (piece, more) := pieces rest
    (c :: piece, more)

/-- Decodes a path. The escapes of a slash and of a percent sign stay, so that the decoded text has
the components of the encoded one; the text between them is decoded piece by piece, and each piece
has to be UTF-8. -/
def decodePath (text : List Char) : Except Utf8.Malformed (List Char) := do
  let (first, more) := pieces text
  let front ← Utf8.decode (decode first)
  let parts ← more.mapM fun (digits, piece) => do
    let decoded ← Utf8.decode (decode piece)
    return '%' :: digits ++ decoded
  return front ++ parts.flatten

end MetaFs.Percent
