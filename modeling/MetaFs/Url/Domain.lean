import MetaFs.Percent
import MetaFs.Url.Charset
import MetaFs.Url.Punycode
/-!
Domain names as a network understands them: lower case, and labels with other letters in Punycode.
The letters of Latin, Greek and Cyrillic are folded to lower case; other scripts are taken as they
stand.
-/

namespace MetaFs.Url.Domain

/-- The lower-case form of a letter beyond ASCII. -/
def foldLetter (n : Nat) : Nat :=
  if (0xC0 ≤ n && n ≤ 0xDE && n ≠ 0xD7) || (0x391 ≤ n && n ≤ 0x3AB && n ≠ 0x3A2) ||
      (0x410 ≤ n && n ≤ 0x42F) then n + 32
  else if 0x400 ≤ n && n ≤ 0x40F then n + 80
  else if n = 0x178 then 0xFF
  else if (0x100 ≤ n && n ≤ 0x137 && n ≠ 0x130 && n ≠ 0x131) || (0x14A ≤ n && n ≤ 0x177) ||
      (0x460 ≤ n && n ≤ 0x481) || (0x48A ≤ n && n ≤ 0x4BF) || (0x4D0 ≤ n && n ≤ 0x52F) ||
      (0x1E00 ≤ n && n ≤ 0x1E95) || (0x1EA0 ≤ n && n ≤ 0x1EFF) then n + (1 - n % 2)
  else if (0x139 ≤ n && n ≤ 0x148) || (0x179 ≤ n && n ≤ 0x17E) then n + n % 2
  else n

/-- What a character becomes: nothing, a full stop, an ASCII character or a folded letter. -/
def fold (c : Char) : List Char :=
  let n := c.toNat
  if n < 128 then [lower c]
  else if n = 0xAD || n = 0x200B || n = 0x2060 || n = 0xFEFF || (0xFE00 ≤ n && n ≤ 0xFE0F) then []
  else if n = 0x3002 || n = 0xFF61 then ['.']
  else if 0xFF01 ≤ n && n ≤ 0xFF5E then [lower (Char.ofNat (n - 0xFEE0))]
  else if n = 0xA0 || n = 0x3000 || (0x2000 ≤ n && n ≤ 0x200A) then [' ']
  else [Char.ofNat (foldLetter n)]

/-- Characters beyond ASCII that no label has. -/
def isRefused (c : Char) : Bool :=
  let n := c.toNat
  (0x80 ≤ n && n < 0xA0) || n = 0x200E || n = 0x200F || (0x2028 ≤ n && n ≤ 0x202F) ||
    (0xE000 ≤ n && n ≤ 0xF8FF) || (0xFFF0 ≤ n && n ≤ 0xFFFF) || 0xE0000 ≤ n

def isAscii (text : List Char) : Bool :=
  text.all (·.toNat < 128)

/-- A label that is in Punycode already has to be the encoding of a label in its lasting form. -/
def isProperLabel (label : List Char) : Bool :=
  match label with
  | 'x' :: 'n' :: '-' :: '-' :: rest =>
    match Punycode.decode? rest with
    | none => false
    | some text =>
      !isAscii text && text.flatMap fold == text && !text.any isRefused &&
        Punycode.encode text == rest
  | _ => true

def encodeLabel (label : List Char) : List Char :=
  if isAscii label then label else ['x', 'n', '-', '-'] ++ Punycode.encode label

/-- The lasting form of a domain name, in which escapes may stand. -/
def normalize? (text : List Char) : Option (List Char) := do
  let decoded ← (Utf8.decode (Percent.decode text)).toOption
  let folded := decoded.flatMap fold
  if folded.any (fun c => forbiddenInDomain c || isRefused c) then none
  -- Folding may have made full stops, so that labels are known only now.
  let labels := parts (· = '.') folded
  if labels.all isProperLabel then
    some (['.'].intercalate (labels.map encodeLabel))
  else none

end MetaFs.Url.Domain
