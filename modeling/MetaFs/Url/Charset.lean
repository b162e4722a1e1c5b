/-!
The characters that have to be escaped in each part of a URL. Whatever is not ASCII is escaped
everywhere and is not named here.
-/

namespace MetaFs.Url

def isControl (c : Char) : Bool :=
  c.toNat < 32 || c.toNat = 127

def isAlpha (c : Char) : Bool :=
  let n := c.toNat
  (65 ≤ n && n ≤ 90) || (97 ≤ n && n ≤ 122)

def lower (c : Char) : Char :=
  if 65 ≤ c.toNat && c.toNat ≤ 90 then Char.ofNat (c.toNat + 32) else c

def escapedInFragment (c : Char) : Bool :=
  isControl c || [' ', '"', '<', '>', '`'].contains c

def escapedInQuery (c : Char) : Bool :=
  isControl c || [' ', '"', '#', '<', '>'].contains c

def escapedInSpecialQuery (c : Char) : Bool :=
  escapedInQuery c || c = '\''

def escapedInPath (c : Char) : Bool :=
  escapedInQuery c || ['?', '`', '\x7b', '\x7d'].contains c

def escapedInUserInfo (c : Char) : Bool :=
  escapedInPath c || ['/', ':', ';', '=', '@', '[', '\\', ']', '^', '|'].contains c

/-- Characters that no host has unless it is a domain name with escapes. -/
def forbiddenInHost (c : Char) : Bool :=
  ['\x00', '\t', '\n', '\r', ' ', '#', '/', ':', '<', '>', '?', '@', '[', '\\', ']', '^',
    '|'].contains c

def forbiddenInDomain (c : Char) : Bool :=
  isControl c || c = ' ' || c = '%' || forbiddenInHost c

/-- The part before the first character that `stops` names, and the rest from that character on. -/
def cut (stops : Char → Bool) (text : List Char) : List Char × List Char :=
  (text.takeWhile (fun c => !stops c), text.dropWhile (fun c => !stops c))

/-- The parts between the characters that `separates` names. There is at least one part. -/
def splitAtEach (separates : Char → Bool) : List Char → List Char × List (List Char)
  | [] => ([], [])
  | c :: rest =>
    let (first, more) := splitAtEach separates rest
    if separates c then ([], first :: more) else (c :: first, more)

def parts (separates : Char → Bool) (text : List Char) : List (List Char) :=
  let (first, more) := splitAtEach separates text
  first :: more

end MetaFs.Url
