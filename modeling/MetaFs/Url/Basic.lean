import MetaFs.Url.Host
import MetaFs.Url.Path
/-!
URLs and their one written form.
-/

namespace MetaFs

namespace Url

structure Authority where
  user : List Char := []
  password : Option (List Char) := none
  host : List Char := []
  port : Option UInt16 := none
deriving DecidableEq, Repr

namespace Authority

def text (a : Authority) : List Char :=
  let password := match a.password with
    | some p => ':' :: p
    | none => []
  let port := match a.port with
    | some p => ':' :: (toString p).toList
    | none => []
  let userInfo := a.user ++ password
  (if userInfo.isEmpty then [] else userInfo ++ ['@']) ++ a.host ++ port

end Authority

end Url

/-- Schemes are in lower case, and everything else is escaped already. -/
structure Url where
  scheme : List Char
  authority : Option Url.Authority
  path : Url.Path
  query : Option (List Char) := none
  fragment : Option (List Char) := none
deriving DecidableEq, Repr

namespace Url

/-- The schemes of the web, which have a host and divide paths at backslashes too. -/
def webSchemes : List (String × Nat) :=
  [("http", 80), ("https", 443), ("ws", 80), ("wss", 443), ("ftp", 21)]

def defaultPort? (scheme : List Char) : Option Nat :=
  webSchemes.lookup (String.ofList scheme)

def isWeb (scheme : List Char) : Bool :=
  (defaultPort? scheme).isSome

def isFile (scheme : List Char) : Bool :=
  scheme = ['f', 'i', 'l', 'e']

def isSpecial (scheme : List Char) : Bool :=
  isWeb scheme || isFile scheme

/-- A path of two slashes or more would be read as an authority, so that a dot goes before it. -/
def text (url : Url) : List Char :=
  let path := url.path.text
  let middle := match url.authority with
    | some a => '/' :: '/' :: a.text
    | none => if path.take 2 = ['/', '/'] then ['/', '.'] else []
  let query := match url.query with
    | some q => '?' :: q
    | none => []
  let fragment := match url.fragment with
    | some f => '#' :: f
    | none => []
  url.scheme ++ [':'] ++ middle ++ path ++ query ++ fragment

def host (url : Url) : List Char :=
  (url.authority.map Authority.host).getD []

def port (url : Url) : Option UInt16 :=
  url.authority.bind Authority.port

def user (url : Url) : List Char :=
  (url.authority.map Authority.user).getD []

/-- The path with a slash at its end. -/
def slashed (isFile : Bool) : Path → Path
  | .plain text =>
    -- Blanks at the end stood before a query or a fragment, and both are gone.
    let kept := (text.reverse.dropWhile (· = ' ')).reverse
    if kept.getLast? = some '/' then .plain kept
    else
      match kept ++ ['/'] with
      | '/' :: rest => .plain (['%', '2', 'F'] ++ rest)
      | other => .plain other
  | .rooted segments =>
    if segments.getLast? = some [] then .rooted segments
    else
      let all := segments ++ [[]]
      if isFile then .rooted (Path.trimFront (Path.follow true [] all)) else .rooted all

/-- The URL as that of a directory. -/
def asDirectory (url : Url) : Url :=
  { url with path := slashed (isFile url.scheme) url.path, query := none, fragment := none }

end Url

end MetaFs
