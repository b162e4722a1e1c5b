/-!
Numbers in text: digits in some base, with no blanks and no separators.
-/

namespace MetaFs.Numeral

/-- The value of a digit in a base of at most sixteen. -/
def digit? (base : Nat) (c : Char) : Option Nat :=
  let n := c.toNat
  let value :=
    if 48 ≤ n && n ≤ 57 then n - 48
    else if 65 ≤ n && n ≤ 70 then n - 55
    else if 97 ≤ n && n ≤ 102 then n - 87
    else 16
  if value < base then some value else none

/-- The value of a run of digits that follow the number `high`. -/
def continue? (base high : Nat) : List Char → Option Nat
  | [] => some high
  | c :: rest => do
    let d ← digit? base c
    continue? base (high * base + d) rest

/-- At least one digit, and nothing else. -/
def digits? (base : Nat) (text : List Char) : Option Nat :=
  if text.isEmpty then none else continue? base 0 text

/-- A decimal number below a bound; one plus sign may stand before it. -/
def unsigned? (bound : Nat) (text : String) : Option Nat := do
  let digits := match text.toList with
    | '+' :: rest => rest
    | all => all
  let n ← digits? 10 digits
  if n < bound then some n else none

/-- The bound of the numbers of 64 bits with a sign: the negative ones reach it, and the others stay
below it. -/
def signedBound : Nat := 0x8000000000000000

/-- A decimal number that fits in 64 bits with its sign. -/
def signed64? (text : List Char) : Option Int := do
  let (negative, digits) := match text with
    | '+' :: rest => (false, rest)
    | '-' :: rest => (true, rest)
    | all => (false, all)
  let n ← digits? 10 digits
  let value : Int := if negative then -(n : Int) else n
  if -signedBound ≤ value && value < signedBound then some value else none

def octal (n : Nat) : String :=
  String.ofList (Nat.toDigits 8 n)

def hexadecimal (n : Nat) : String :=
  String.ofList (Nat.toDigits 16 n)

end MetaFs.Numeral
