import MetaFs.Error
import MetaFs.Url.Parse
/-!
URIs of objects: a URL together with its path in plain text. A slash or a percent sign that was
escaped within a name stays escaped.
-/

namespace MetaFs

structure Uri where
  url : Url
  path : String
deriving DecidableEq

namespace Uri

def invalid (text reason : String) : Error :=
  ⟨.inval, s!"uri_parse: failed to parse '{text}' as a URI: {reason}", none⟩

def notText (text reason : String) : Error :=
  ⟨.inval, s!"uri_parse: path of '{text}' is not valid UTF-8: {reason}", none⟩

/-- Reads a URI, which is relative to the base if there is one. As a directory it has a slash at
the end of its path, and neither query nor fragment. -/
def parse (text : String) (base : Option Uri) (directory : Bool) : Except Error Uri := do
  let url ← match Url.parse (base.map Uri.url) text with
    | .ok url => .ok (if directory then url.asDirectory else url)
    | .error e => .error (invalid text e.message)
  match Percent.decodePath url.path.text with
  | .ok path => return ⟨url, String.ofList path⟩
  | .error e => throw (notText text e.message)

def scheme (uri : Uri) : String := String.ofList uri.url.scheme

def user (uri : Uri) : String := String.ofList uri.url.user

def host (uri : Uri) : String := String.ofList uri.url.host

def port (uri : Uri) : Option UInt16 := uri.url.port

def text (uri : Uri) : String := String.ofList uri.url.text

def shown (uri : Uri) : String :=
  Shown.record "Uri" [
    ("scheme", Quoted.quote uri.scheme), ("user_info", Quoted.quote uri.user),
    ("host", Quoted.quote uri.host), ("port", Shown.option Shown.number uri.port),
    ("path", Quoted.quote uri.path)]

def defaultScheme : String := "hdfs"

/-- The URI text for a name node that is given as a URI or as a host alone. -/
def nameNodeText (given : String) : String :=
  if given.toList.contains '/' then given else s!"{defaultScheme}://{given}"

end Uri

end MetaFs
