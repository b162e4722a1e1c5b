/-!
Punycode, which writes a label with letters beyond ASCII in letters, digits and hyphens: the ASCII
characters first, then where each other character goes, as numbers with a base that adapts.
-/

namespace MetaFs.Url.Punycode

def threshold (k bias : Nat) : Nat :=
  if k ≤ bias then 1 else if bias + 26 ≤ k then 26 else k - bias

/-- Brings a delta below 456 and counts the steps of 36 on the way. -/
def shrink (delta k : Nat) : Nat × Nat :=
  if 455 < delta then shrink (delta / 35) (k + 36) else (delta, k)
termination_by delta
decreasing_by omega

def adapt (delta points : Nat) (first : Bool) : Nat :=
  let start := if first then delta / 700 else delta / 2
  let (rest, k) := shrink (start + start / points) 0
  k + 36 * rest / (rest + 38)

def digit (n : Nat) : Char :=
  if n < 26 then Char.ofNat (97 + n) else Char.ofNat (22 + n)

def digitValue? (c : Char) : Option Nat :=
  let n := c.toNat
  if 97 ≤ n && n ≤ 122 then some (n - 97)
  else if 65 ≤ n && n ≤ 90 then some (n - 65)
  else if 48 ≤ n && n ≤ 57 then some (n - 22)
  else none

theorem threshold_lt (k bias : Nat) : threshold k bias < 36 := by
  unfold threshold
  split
  · omega
  · split <;> omega

/-- A number in digits of growing weight; the last one is below its threshold. -/
def writeNumber (q k bias : Nat) : List Char :=
  let t := threshold k bias
  if h : q < t then [digit q]
  else digit (t + (q - t) % (36 - t)) :: writeNumber ((q - t) / (36 - t)) (k + 36) bias
termination_by q
decreasing_by
  have ht := threshold_lt k bias
  have hpos : 0 < threshold k bias := by
    unfold threshold
    split
    · omega
    · split <;> omega
  exact Nat.lt_of_le_of_lt (Nat.div_le_self _ _) (by omega)

/-- Reads such a number and returns what follows it. -/
def readNumber (value weight k bias : Nat) : List Char → Option (Nat × List Char)
  | [] => none
  | c :: rest => do
    let d ← digitValue? c
    let t := threshold k bias
    let next := value + d * weight
    if d < t then some (next, rest)
    else readNumber next (weight * (36 - t)) (k + 36) bias rest

/-- The state of the writer between two characters. -/
structure Writer where
  delta : Nat
  bias : Nat
  written : Nat
  output : List Char

/-- Goes through the label once for the code point `n` and writes where it stands. -/
def pass (basic n : Nat) (w : Writer) : List Char → Writer
  | [] => w
  | c :: rest =>
    if c.toNat < n then pass basic n { w with delta := w.delta + 1 } rest
    else if c.toNat = n then
      pass basic n ⟨0, adapt w.delta (w.written + 1) (w.written = basic), w.written + 1,
        w.output ++ writeNumber w.delta 36 w.bias⟩ rest
    else pass basic n w rest

/-- The code points beyond ASCII of a label, from the lowest up, each once. -/
def points (label : List Char) : List Nat :=
  (((label.map Char.toNat).filter (128 ≤ ·)).mergeSort).eraseReps

def encode (label : List Char) : List Char :=
  let ascii := label.filter (·.toNat < 128)
  let basic := ascii.length
  let start : Writer := ⟨0, 72, basic, if basic = 0 then [] else ascii ++ ['-']⟩
  let step (state : Writer × Nat) (n : Nat) : Writer × Nat :=
    let (w, low) := state
    let advanced := { w with delta := w.delta + (n - low) * (w.written + 1) }
    let done := pass basic n advanced label
    ({ done with delta := done.delta + 1 }, n + 1)
  ((points label).foldl step (start, 128)).1.output

/-- Puts characters in until the digits are used up. -/
def insertAll (n i bias : Nat) (first : Bool) (output : List Char) (digits : List Char)
    (fuel : Nat) : Option (List Char) :=
  match fuel with
  | 0 => none
  | fuel + 1 =>
    if digits.isEmpty then some output
    else do
      let (next, rest) ← readNumber i 1 36 bias digits
      let count := output.length + 1
      let code := n + next / count
      if code < 128 || 0x10FFFF < code || (0xD800 ≤ code && code < 0xE000) then none
      -- The number says how often the label was gone through, and where it stopped.
      let place := next % count
      insertAll code (place + 1) (adapt (next - i) count first) false
        (output.take place ++ Char.ofNat code :: output.drop place) rest fuel

/-- The label behind an encoded one. The characters before the last hyphen stand for themselves. -/
def decode? (text : List Char) : Option (List Char) :=
  let back := text.reverse
  let digits := (back.takeWhile (· ≠ '-')).reverse
  let ascii := (back.dropWhile (· ≠ '-')).reverse.dropLast
  insertAll 128 0 72 true ascii digits (digits.length + 1)

end MetaFs.Url.Punycode
