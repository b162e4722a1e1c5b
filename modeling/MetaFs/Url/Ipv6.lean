import MetaFs.Numeral
import MetaFs.Url.Charset
/-!
IPv6 addresses: eight groups of 16 bits. A double colon stands for a run of zero groups, and the
last two groups may be written as an IPv4 address.
-/

namespace MetaFs.Url.Ipv6

/-- A decimal byte without zeros in front. -/
def byte? (digits : List Char) : Option Nat := do
  let n ← Numeral.digits? 10 digits
  if n < 256 && (digits.length = 1 || digits.head? ≠ some '0') then some n else none

def group? (digits : List Char) : Option Nat :=
  if digits.length ≤ 4 then Numeral.digits? 16 digits else none

/-- The groups of a part without a double colon; an IPv4 address may stand at the end. -/
def groups? : List (List Char) → Option (List Nat)
  | [] => some []
  | [last] =>
    if last.contains '.' then do
      match ← (parts (· = '.') last).mapM byte? with
      | [a, b, c, d] => some [a * 256 + b, c * 256 + d]
      | _ => none
    else do return [← group? last]
  | digits :: rest => do
    let n ← group? digits
    return n :: (← groups? rest)

/-- What stands before and after the first double colon. -/
def atDoubleColon : List Char → Option (List Char × List Char)
  | ':' :: ':' :: rest => some ([], rest)
  | c :: rest => (atDoubleColon rest).map fun (before, after) => (c :: before, after)
  | [] => none

def side? (text : List Char) : Option (List Nat) :=
  if text.isEmpty then some [] else groups? (parts (· = ':') text)

def parse? (text : List Char) : Option (List Nat) := do
  match atDoubleColon text with
  | none =>
    let groups ← groups? (parts (· = ':') text)
    if groups.length = 8 then some groups else none
  | some (before, after) =>
    if before.contains '.' then none
    let front ← side? before
    let back ← side? after
    -- A double colon stands for one group at least.
    let written := front.length + back.length
    if written < 8 then some (front ++ List.replicate (8 - written) 0 ++ back) else none

/-- The length of the run of zeros at the front. -/
def zeros (groups : List Nat) : Nat :=
  (groups.takeWhile (· = 0)).length

/-- Where the first of the longest runs of zeros starts, and its length. -/
def longestRun : List Nat → Nat × Nat
  | [] => (0, 0)
  | n :: rest =>
    let here := zeros (n :: rest)
    let (start, length) := longestRun rest
    if length ≤ here then (0, here) else (start + 1, length)

def colonSeparated (groups : List Nat) : List Char :=
  (":".intercalate (groups.map Numeral.hexadecimal)).toList

/-- Two zero groups or more are left out once. -/
def display (groups : List Nat) : List Char :=
  let (start, length) := longestRun groups
  if length < 2 then colonSeparated groups
  else colonSeparated (groups.take start) ++ [':', ':'] ++
    colonSeparated (groups.drop (start + length))

end MetaFs.Url.Ipv6
