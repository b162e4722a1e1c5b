import MetaFs.Configuration
import MetaFs.Permission
import MetaFs.Session
/-!
From settings to a session. Everything is checked before the authority is reached, and the first
request asks for the authority's defaults.
-/

namespace MetaFs

structure Settings where
  nameNode : Option String := none
  port : Option UInt16 := none
  user : Option String := none
  conf : Configuration := {}

namespace Settings

def defaultUmask : String := "022"
def defaultCacheExpiry : Int := 10 * 60 * 1000

/-- The text that names the authority. -/
def nameNodeText (settings : Settings) : Except Error String :=
  match settings.nameNode with
  | some given => .ok (Uri.nameNodeText given)
  | none =>
    match settings.conf.get? Key.defaultFs with
    | some text => .ok text
    | none => .error ⟨.inval, s!"no namenode given and {Key.defaultFs} is unset", none⟩

/-- The configured address, or the host of the URI. -/
def address (settings : Settings) (uri : Uri) : Except Error Address :=
  let port := uri.port <|> settings.port
  match settings.conf.get? Key.rpcAddress with
  | some text => Address.parse text port
  | none =>
    if uri.host.isEmpty then
      .error ⟨.inval, s!"get_namenode_addr: no namenode host in {uri.text}", none⟩
    else .ok ⟨uri.host, Address.portOr port⟩

def home (scheme user : String) : Except Error WorkingDirectory :=
  match Uri.parse s!"{scheme}:///user/{user}/" none true with
  | .ok uri => .ok ⟨uri⟩
  | .error e => .error (e.prepend "error parsing working directory")

def umask (settings : Settings) : Except Error UInt32 :=
  match Permission.parse ((settings.conf.get? Key.umask).getD defaultUmask) with
  | .ok mask => .ok mask
  | .error e => .error (e.prepend s!"error handling {Key.umask}")

def deadNodeMillis (settings : Settings) : Except Error Nat := do
  let millis ← settings.conf.intOr Key.cacheExpiry defaultCacheExpiry
  if 0 ≤ millis then return millis.toNat
  else throw ⟨.inval, s!"{Key.cacheExpiry} must not be negative, got {millis}", none⟩

/-- Settles everything that does not need the authority. The user of the process counts when neither
the URI nor the settings name one. -/
def profile (settings : Settings) (processUser : String) : Except Error Profile := do
  if (settings.conf.get? Key.nameserviceId).isSome then
    throw ⟨.opnotsupp,
      "get_namenode_addr: we don't yet support HA or federated configurations", none⟩
  let uri ← Uri.parse (← settings.nameNodeText) none false
  -- A user in the URI wins over the one in the settings.
  let user := if uri.user.isEmpty then settings.user.getD processUser else uri.user
  let address ← settings.address uri
  let scheme := uri.scheme
  let authority := uri.host
  let urlPrefix :=
    if address.port = Address.defaultPort then s!"{scheme}://{authority}"
    else s!"{scheme}://{authority}:{address.port}"
  let home ← home scheme user
  let umask ← settings.umask
  let deadNodeMillis ← settings.deadNodeMillis
  return { address, scheme, authority, user, urlPrefix, home, umask, deadNodeMillis }

/-- Asks for the defaults, with which a session starts in the user's home. -/
def probe {σ : Type} (profile : Profile) (link : Link σ) : Over σ Session := do
  let context := "get_server_defaults"
  match ← Session.call link context .getServerDefaults with
  | .reply (.getServerDefaults defaults) =>
    return { profile, workingDirectory := profile.home, blockSize := defaults.blockSize }
  | other => Session.unexpected context other

/-- Opens a session. A link that was started is finished again when the first request fails. -/
def connect {σ : Type} (settings : Settings) (processUser : String) (link : Link σ) :
    Over σ Session :=
  Over.within "connect" do
    let profile ← ofExcept (settings.profile processUser)
    link.start profile.address profile.user
    tryCatch (probe profile link) fun e => do
      link.finish
      throw e
where
  ofExcept {α : Type} : Except Error α → Over σ α
    | .ok a => return a
    | .error e => throw e

end Settings

end MetaFs
