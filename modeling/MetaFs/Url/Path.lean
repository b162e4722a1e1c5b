import MetaFs.Percent
import MetaFs.Url.Charset
/-!
The path of a URL: either a plain text, or segments that each follow a slash. A segment of one dot
stands for nothing and one of two dots takes the segment before it away.
-/

namespace MetaFs.Url

abbrev Segment := List Char

inductive Path where
  | plain (text : List Char)
  | rooted (segments : List Segment)
deriving DecidableEq, Repr

namespace Path

def text : Path → List Char
  | plain text => text
  | rooted segments => segments.flatMap ('/' :: ·)

def isPlain : Path → Bool
  | plain _ => true
  | rooted _ => false

/-- A dot may be written as an escape. -/
def isDot (segment : Segment) : Bool :=
  segment = ['.'] || segment.map lower = ['%', '2', 'e']

def isDoubleDot : Segment → Bool
  | '.' :: rest => isDot rest
  | '%' :: a :: b :: rest => isDot ['%', a, b] && isDot rest
  | _ => false

def isDriveLetter : Segment → Bool
  | [c, d] => isAlpha c && (d = ':' || d = '|')
  | _ => false

/-- A drive letter in its lasting form. -/
def isNormalDrive : Segment → Bool
  | [c, ':'] => isAlpha c
  | _ => false

/-- A text that has a drive letter before its end or before a separator. -/
def startsWithDrive : List Char → Bool
  | [c, d] => isDriveLetter [c, d]
  | c :: d :: e :: _ => isDriveLetter [c, d] && ['/', '\\', '?', '#'].contains e
  | _ => false

/-- Takes the nearest segment away, unless it is a drive letter. -/
def parent : List Segment → List Segment
  | [] => []
  | segment :: above => if startsWithDrive segment then segment :: above else above

/-- A file path starts with a drive letter only in its lasting form. -/
def settle (isFile : Bool) (above : List Segment) (segment : Segment) : Segment :=
  match isFile, above, segment with
  | true, [], [c, '|'] => if isAlpha c then [c, ':'] else segment
  | _, _, _ => segment

/-- Follows segments from a place, which is given by the segments above it with the nearest one
first. After a dot segment at the end comes an empty one. -/
def follow (isFile : Bool) (above : List Segment) : List Segment → List Segment
  | [] => above.reverse
  | [last] =>
    if isDoubleDot last then (parent above).reverse ++ [[]]
    else if isDot last then above.reverse ++ [[]]
    else (settle isFile above last :: above).reverse
  | segment :: rest =>
    if isDoubleDot segment then follow isFile (parent above) rest
    else if isDot segment then follow isFile above rest
    else follow isFile (settle isFile above segment :: above) rest

/-- The segments of a text that comes after a slash. A backslash divides as well where the scheme
is special. -/
def segmentsOf (isSpecial : Bool) (text : List Char) : List Segment :=
  parts (fun c => c = '/' || (isSpecial && c = '\\')) (Percent.encode escapedInPath text)

/-- File paths do not start with empty segments, unless there is no other one. -/
def trimFront (segments : List Segment) : List Segment :=
  match segments.dropWhile List.isEmpty with
  | [] => [[]]
  | kept => kept

end Path

end MetaFs.Url
