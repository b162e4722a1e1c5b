import MetaFs.Url.Basic
/-!
Reading URLs, alone or relative to another one, by the rules that web browsers share.
-/

namespace MetaFs.Url

/-- Blanks and control characters around a URL, and tabs and line ends within, do not count. -/
def tidy (text : List Char) : List Char :=
  let front := text.dropWhile (·.toNat ≤ 32)
  let trimmed := (front.reverse.dropWhile (·.toNat ≤ 32)).reverse
  trimmed.filter fun c => c ≠ '\t' && c ≠ '\n' && c ≠ '\r'

/-- The scheme before the first colon, and what follows the colon. -/
def splitScheme (text : List Char) : Option (List Char × List Char) :=
  match text, cut (· = ':') text with
  | first :: _, (name, _ :: rest) =>
    if isAlpha first && name.all isSchemeChar then some (name.map lower, rest) else none
  | _, _ => none
where
  isSchemeChar (c : Char) : Bool :=
    isAlpha c || ('0' ≤ c && c ≤ '9') || c = '+' || c = '-' || c = '.'

def endsPath (c : Char) : Bool :=
  c = '?' || c = '#'

def isSlash (c : Char) : Bool :=
  c = '/' || c = '\\'

/-- Sets the query and the fragment from the text after the path. -/
def withTail (url : Url) (tail : List Char) : Url :=
  match tail with
  | '?' :: rest =>
    let (query, after) := cut (· = '#') rest
    let escaped := if isSpecial url.scheme then escapedInSpecialQuery else escapedInQuery
    let fragment := match after with
      | _ :: f => some (Percent.encode escapedInFragment f)
      | [] => none
    { url with query := some (Percent.encode escaped query), fragment := fragment }
  | '#' :: rest =>
    { url with query := none, fragment := some (Percent.encode escapedInFragment rest) }
  | _ => { url with query := none, fragment := none }

/-- Sets the fragment alone. -/
def withFragment (url : Url) (text : List Char) : Url :=
  { url with fragment := some (Percent.encode escapedInFragment text) }

/-- Follows the path of a text from a place and takes the rest of the text along. -/
def follow (url : Url) (above : List Segment) (text : List Char) : Url :=
  let (path, tail) := cut endsPath text
  let isFile := isFile url.scheme
  let segments := Path.follow isFile above (Path.segmentsOf (isSpecial url.scheme) path)
  withTail { url with path := .rooted (if isFile then Path.trimFront segments else segments) } tail

/-- The path after an authority, where the first slash may be missing. -/
def followAuthority (url : Url) (text : List Char) : Url :=
  let isFirstSlash (c : Char) := if isSpecial url.scheme then isSlash c else c = '/'
  match text with
  | [] =>
    if isSpecial url.scheme then follow url [] [] else withTail { url with path := .rooted [] } []
  | c :: rest =>
    if isFirstSlash c then follow url [] rest
    else if endsPath c && !isSpecial url.scheme then withTail { url with path := .rooted [] } text
    else follow url [] text

/-- The user and the password before the last at sign of the authority. -/
def splitUserInfo (isSpecial : Bool) (text : List Char) :
    Except UrlError (Authority × List Char) :=
  let (authority, rest) := cut (fun c => c = '/' || endsPath c || (isSpecial && c = '\\')) text
  let back := authority.reverse
  let after := (back.takeWhile (· ≠ '@')).reverse
  match back.dropWhile (· ≠ '@') with
  | [] => .ok ({}, text)
  | _ :: info =>
    if info.isEmpty then
      -- An at sign with nothing before it is dropped, but then a host has to follow.
      if after.isEmpty && !rest.isEmpty then .error .emptyHost else .ok ({}, after ++ rest)
    else
      let (user, password) := cut (· = ':') info.reverse
      let user := Percent.encode escapedInUserInfo user
      let password := match password with
        | [] | [_] => none
        | _ :: p => some (Percent.encode escapedInUserInfo p)
      .ok ({ user, password }, after ++ rest)

/-- The text of the host, and what follows it. A colon in brackets does not end it. -/
def splitHost (isSpecial inBrackets : Bool) : List Char → List Char × List Char
  | [] => ([], [])
  | c :: rest =>
    if c = '/' || endsPath c || (isSpecial && c = '\\') || (c = ':' && !inBrackets) then
      ([], c :: rest)
    else
      let inside := if c = '[' then true else if c = ']' then false else inBrackets
      let (host, after) := splitHost isSpecial inside rest
      (c :: host, after)

/-- The port after a colon; the one that the scheme stands for is left out. -/
def readPort (scheme text : List Char) : Except UrlError (Option UInt16 × List Char) :=
  let isDigit (c : Char) := '0' ≤ c && c ≤ '9'
  let digits := text.takeWhile isDigit
  let rest := text.dropWhile isDigit
  let stops := match rest with
    | [] => true
    | c :: _ => isSlash c || endsPath c
  let value := (Numeral.continue? 10 0 digits).getD 0
  if 65535 < value || !stops then .error .badPort
  else if digits.isEmpty || defaultPort? scheme = some value then .ok (none, rest)
  else .ok (some (UInt16.ofNat value), rest)

/-- What follows the two slashes of a URL that is none of a file. -/
def readAuthority (scheme text : List Char) : Except UrlError Url := do
  let special := isSpecial scheme
  let (userInfo, text) ← splitUserInfo special text
  let (hostText, rest) := splitHost special false text
  let host ←
    if special then (if hostText.isEmpty then .error .emptyHost else Host.ofDomain hostText)
    else Host.ofText hostText
  if host.isEmpty && (rest.head? = some ':' || userInfo.user ≠ [] || userInfo.password.isSome) then
    throw .emptyHost
  -- The host has been judged by now, so that a bad port is reported last.
  let (port, rest) ← match rest with
    | ':' :: after => readPort scheme after
    | _ => .ok (none, rest)
  let authority := { userInfo with host, port }
  return followAuthority ⟨scheme, some authority, .rooted [], none, none⟩ rest

def fileScheme : List Char := ['f', 'i', 'l', 'e']

def fileUrl (host : List Char) : Url :=
  ⟨fileScheme, some { host }, .rooted [[]], none, none⟩

/-- What follows the two slashes of a file URL. A drive letter is no host, and a host before a drive
letter is dropped. -/
def readFileHost (text : List Char) : Except UrlError Url := do
  let (hostText, rest) := cut (fun c => isSlash c || endsPath c) text
  if Path.isDriveLetter hostText then return follow (fileUrl []) [] text
  let host ← if hostText.isEmpty then .ok [] else Host.ofDomain hostText
  if host.isEmpty || host = "localhost".toList then return follow (fileUrl []) [] rest
  -- The path decides whether the host stays.
  let url := followAuthority (fileUrl host) rest
  let drive := match rest with
    | c :: path =>
      let segments := Path.follow true [] (Path.segmentsOf true (cut endsPath path).1)
      isSlash c && segments.head?.any Path.isNormalDrive
    | [] => false
  return if drive then { url with authority := some {} } else url

/-- The segments of a base that stay for a relative path, with the nearest one first. -/
def above (isFile : Bool) (path : Path) : List Segment :=
  match path with
  | .plain _ => []
  | .rooted segments =>
    match segments.reverse with
    | [] => []
    | last :: rest => if isFile && Path.isNormalDrive last then last :: rest else rest

def firstSegment (path : Path) : Segment :=
  match path with
  | .rooted (s :: _) => s
  | _ => []

/-- What follows the scheme of a file URL, and all of a text that is relative to one. -/
def readFile (base : Option Url) (text : List Char) : Except UrlError Url :=
  match text with
  | c :: rest =>
    if isSlash c then
      match rest with
      | d :: after => if isSlash d then readFileHost after else .ok (fromRoot rest)
      | [] => .ok (fromRoot rest)
    else
      match base with
      | none => .ok (follow (fileUrl []) [] text)
      | some base =>
        if c = '?' then .ok (withTail base text)
        else if c = '#' then .ok (withFragment base rest)
        else if Path.startsWithDrive text then .ok (follow (fileUrl []) [] text)
        else .ok (follow base (above true base.path) text)
  | [] =>
    match base with
    | none => .ok (fileUrl [])
    | some base => .ok { base with fragment := none }
where
  /-- A path from the root keeps the drive or the host of the base. -/
  fromRoot (rest : List Char) : Url :=
    match base with
    | none => follow (fileUrl []) [] rest
    | some base =>
      if Path.startsWithDrive rest then follow (fileUrl []) [] rest
      else
        let first := firstSegment base.path
        if Path.isNormalDrive first then follow (fileUrl []) [first] rest
        else follow (fileUrl base.host) [] rest

/-- A text without a scheme, relative to a URL that has segments. -/
def readRelative (base : Url) (text : List Char) : Except UrlError Url :=
  match text with
  | [] => .ok { base with fragment := none }
  | c :: rest =>
    if c = '?' then .ok (withTail base text)
    else if c = '#' then .ok (withFragment base rest)
    else if isSlash c then
      match rest with
      | d :: after =>
        if isSlash d then
          let isPair := c = '/' && d = '/'
          readAuthority base.scheme (if isPair then after else after.dropWhile isSlash)
        else .ok (follow base [] rest)
      | [] => .ok (follow base [] rest)
    else .ok (follow base (above false base.path) text)

/-- What follows a scheme. -/
def readScheme (base : Option Url) (scheme text : List Char) : Except UrlError Url :=
  if isFile scheme then
    readFile (base.filter fun b => isFile b.scheme) text
  else if isWeb scheme then
    let slashes := text.takeWhile isSlash
    match base with
    | some b =>
      -- Without two slashes the scheme only repeats that of the base.
      if slashes.length < 2 && b.scheme = scheme then readRelative b text
      else readAuthority scheme (text.dropWhile isSlash)
    | none => readAuthority scheme (text.dropWhile isSlash)
  else
    match text with
    | '/' :: '/' :: rest => readAuthority scheme rest
    | '/' :: rest => .ok (follow ⟨scheme, none, .rooted [], none, none⟩ [] rest)
    | _ =>
      let (path, tail) := cut endsPath text
      .ok (withTail ⟨scheme, none, .plain (Percent.encode isControl path), none, none⟩ tail)

/-- Reads a URL. Without a scheme it is relative to the base. -/
def parse (base : Option Url) (text : String) : Except UrlError Url :=
  let text := tidy text.toList
  match splitScheme text with
  | some (scheme, rest) => readScheme base scheme rest
  | none =>
    match base with
    | none => .error .relativeWithoutBase
    | some base =>
      match text with
      | '#' :: rest => .ok (withFragment base rest)
      | _ =>
        if base.path.isPlain then .error .relativeToPlainPath
        else if isFile base.scheme then readFile (some base) text
        else readRelative base text

end MetaFs.Url
