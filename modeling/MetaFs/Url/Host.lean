import MetaFs.Url.Domain
import MetaFs.Url.Ipv4
import MetaFs.Url.Ipv6
/-!
The host of a URL. Schemes of the web have domain names and addresses; in any other scheme a host is
a text that is kept, with escapes where it needs them.
-/

namespace MetaFs.Url

/-- Why a text is no URL. -/
inductive UrlError where
  | emptyHost
  | badDomain
  | badPort
  | badIpv4
  | badIpv6
  | badHostCharacter
  | relativeWithoutBase
  | relativeToPlainPath
deriving DecidableEq, Repr

def UrlError.message : UrlError → String
  | emptyHost => "empty host"
  | badDomain => "invalid international domain name"
  | badPort => "invalid port number"
  | badIpv4 => "invalid IPv4 address"
  | badIpv6 => "invalid IPv6 address"
  | badHostCharacter => "invalid domain character"
  | relativeWithoutBase => "relative URL without a base"
  | relativeToPlainPath => "relative URL with a cannot-be-a-base base"

namespace Host

/-- An IPv6 address in brackets. -/
def bracketed (text : List Char) : Except UrlError (List Char) :=
  if text.getLast? = some ']' then
    match Ipv6.parse? (text.drop 1).dropLast with
    | some groups => .ok ('[' :: Ipv6.display groups ++ [']'])
    | none => .error .badIpv6
  else .error .badIpv6

def ofDomain (text : List Char) : Except UrlError (List Char) :=
  if text.head? = some '[' then bracketed text
  else
    match Domain.normalize? text with
    | none => .error .badDomain
    | some [] => .error .emptyHost
    | some name =>
      if Ipv4.endsInNumber name then
        match Ipv4.parse? name with
        | some address => .ok (Ipv4.display address)
        | none => .error .badIpv4
      else .ok name

def ofText (text : List Char) : Except UrlError (List Char) :=
  if text.head? = some '[' then bracketed text
  else if text.any forbiddenInHost then .error .badHostCharacter
  else .ok (Percent.encode isControl text)

end Host

end MetaFs.Url
