import Mathlib
import MetaFs.Proofs.WorkingDirectories
/-! How a session is opened. The authority is reached once at most, and only when everything that
the settings have to say is there and in order; what was opened in vain is let go of. -/

namespace MetaFs

variable {σ : Type}

/-- What a client has to do with an authority. -/
inductive Contact where
  | opened (address : Address) (user : String) (result : Except Error Unit)
  | asked (trip : Trip)
  | closed

/-- The same link, which keeps the contacts beside the state of the authority. -/
def Link.watched (link : Link σ) : Link (σ × List Contact) where
  start address user := ExceptT.mk do
    let (state, contacts) ← get
    let (result, next) := (link.start address user).run.run state
    set (next, contacts ++ [.opened address user result])
    return result
  call request := ExceptT.mk do
    let (state, contacts) ← get
    let (reply, next) := (link.call request).run.run state
    set (next, contacts ++ [.asked ⟨request, reply⟩])
    return reply
  finish := do
    let (state, contacts) ← get
    set ((link.finish.run state).2, contacts ++ [.closed])

namespace Link

variable {link : Link σ} {state next : σ} (contacts : List Contact)

theorem run_start_watched {address : Address} {user : String} {result : Except Error Unit}
    (h : (link.start address user).run.run state = (result, next)) :
    (link.watched.start address user).run.run (state, contacts) =
      (result, next, contacts ++ [.opened address user result]) := by
  show (((link.start address user).run.run state).1, ((link.start address user).run.run state).2,
    contacts ++ [.opened address user ((link.start address user).run.run state).1]) = _
  rw [h]

theorem run_call_watched {request : Request} {reply : Except Error Body}
    (h : (link.call request).run.run state = (reply, next)) :
    (link.watched.call request).run.run (state, contacts) =
      (reply, next, contacts ++ [.asked ⟨request, reply⟩]) := by
  show (((link.call request).run.run state).1, ((link.call request).run.run state).2,
    contacts ++ [.asked ⟨request, ((link.call request).run.run state).1⟩]) = _
  rw [h]

end Link

namespace Settings

variable {settings : Settings} {processUser : String} {uri : Uri} {profile : Profile}

/-! What the settings have to say. -/

/-- The text that names the authority: the name node, or else the configured URI. -/
def NamesText (settings : Settings) (text : String) : Prop :=
  (∃ given, settings.nameNode = some given ∧ text = Uri.nameNodeText given) ∨
    settings.nameNode = none ∧ settings.conf.get? Key.defaultFs = some text

/-- The authority is named by this URI. -/
def NamesUri (settings : Settings) (uri : Uri) : Prop :=
  ∃ text, settings.NamesText text ∧ Uri.parse text none false = .ok uri

/-- The user in the URI, or the one in the settings, or the one of the process. -/
def userName (settings : Settings) (processUser : String) (uri : Uri) : String :=
  if uri.user.isEmpty then settings.user.getD processUser else uri.user

/-- The configured address can be read, or else the URI has a host. -/
def HasAddress (settings : Settings) (uri : Uri) : Prop :=
  (∃ text address, settings.conf.get? Key.rpcAddress = some text ∧
    Address.parse text (uri.port <|> settings.port) = .ok address) ∨
  settings.conf.get? Key.rpcAddress = none ∧ uri.host ≠ ""

/-- Everything that a session needs before it reaches the authority. -/
structure Ready (settings : Settings) (processUser : String) (uri : Uri) : Prop where
  standalone : settings.conf.get? Key.nameserviceId = none
  named : settings.NamesUri uri
  address : settings.HasAddress uri
  home : ∃ home, Uri.parse s!"{uri.scheme}:///user/{settings.userName processUser uri}/" none true =
    .ok home
  umask : ∃ mask, Permission.parse ((settings.conf.get? Key.umask).getD defaultUmask) = .ok mask
  expiry : ∀ text, settings.conf.get? Key.cacheExpiry = some text →
    ∃ millis : ℕ, Numeral.signed64? (Blank.trim text.toList) = some (millis : ℤ)

theorem namesText_iff {text : String} :
    settings.NamesText text ↔ settings.nameNodeText = .ok text := by
  rw [NamesText, nameNodeText]
  cases settings.nameNode with
  | some given => simp [eq_comm]
  | none => cases settings.conf.get? Key.defaultFs <;> simp [eq_comm]

theorem hasAddress_iff :
    settings.HasAddress uri ↔ ∃ address, settings.address uri = .ok address := by
  rw [HasAddress]
  simp only [address]
  cases settings.conf.get? Key.rpcAddress with
  | some text => simp
  | none =>
    by_cases hhost : uri.host = ""
    · simp [hhost]
    · simp [hhost, String.isEmpty_iff]

theorem home_ok_iff {scheme name : String} : (∃ wd, home scheme name = .ok wd) ↔
    ∃ uri, Uri.parse s!"{scheme}:///user/{name}/" none true = .ok uri := by
  rw [home]
  cases Uri.parse s!"{scheme}:///user/{name}/" none true <;> simp

theorem umask_ok_iff : (∃ mask, settings.umask = .ok mask) ↔
    ∃ mask, Permission.parse ((settings.conf.get? Key.umask).getD defaultUmask) = .ok mask := by
  rw [umask]
  cases Permission.parse ((settings.conf.get? Key.umask).getD defaultUmask) <;> simp

theorem deadNodeMillis_ok_iff : (∃ millis, settings.deadNodeMillis = .ok millis) ↔
    ∀ text, settings.conf.get? Key.cacheExpiry = some text →
      ∃ millis : ℕ, Numeral.signed64? (Blank.trim text.toList) = some (millis : ℤ) := by
  rw [deadNodeMillis, Configuration.intOr, Configuration.int?]
  cases settings.conf.get? Key.cacheExpiry with
  | none => exact iff_of_true ⟨_, rfl⟩ (by rintro text ⟨⟩)
  | some text =>
    simp only [Option.some.injEq, forall_eq']
    cases hread : Numeral.signed64? (Blank.trim text.toList) with
    | none => exact iff_of_false (by rintro ⟨millis, ⟨⟩⟩) (by rintro ⟨millis, ⟨⟩⟩)
    | some millis =>
      simp only [Option.some.injEq]
      show (∃ found, (if 0 ≤ millis then pure millis.toNat else throw _ : Except Error ℕ) =
        .ok found) ↔ _
      by_cases hmillis : 0 ≤ millis
      · rw [if_pos hmillis]
        exact iff_of_true ⟨_, rfl⟩ ⟨millis.toNat, (Int.toNat_of_nonneg hmillis).symm⟩
      · rw [if_neg hmillis]
        refine iff_of_false (by rintro ⟨found, ⟨⟩⟩) ?_
        rintro ⟨found, rfl⟩
        exact hmillis (Int.natCast_nonneg found)

/-- What the names of objects begin with: the port is left out if it is the usual one. -/
def prefixOf (uri : Uri) (port : UInt16) : String :=
  if port = Address.defaultPort then s!"{uri.scheme}://{uri.host}"
  else s!"{uri.scheme}://{uri.host}:{port}"

/-- What is settled before the authority is reached, by the URI that names it. -/
structure Profiles (settings : Settings) (processUser : String) (uri : Uri) (profile : Profile) :
    Prop where
  address : settings.address uri = .ok profile.address
  scheme : profile.scheme = uri.scheme
  authority : profile.authority = uri.host
  user : profile.user = settings.userName processUser uri
  urlPrefix : profile.urlPrefix = prefixOf uri profile.address.port
  home : Settings.home uri.scheme profile.user = .ok profile.home
  umask : settings.umask = .ok profile.umask
  deadNodeMillis : settings.deadNodeMillis = .ok profile.deadNodeMillis

theorem profile_eq_ok_iff : settings.profile processUser = .ok profile ↔
    settings.conf.get? Key.nameserviceId = none ∧
      ∃ uri, settings.NamesUri uri ∧ settings.Profiles processUser uri profile := by
  constructor
  · intro h
    rw [Settings.profile] at h
    split_ifs at h with hnameservice
    · cases h
    · obtain ⟨text, htext, h⟩ := eq_ok_of_bind h
      obtain ⟨uri, huri, h⟩ := eq_ok_of_bind h
      obtain ⟨address, haddress, h⟩ := eq_ok_of_bind h
      obtain ⟨home, hhome, h⟩ := eq_ok_of_bind h
      obtain ⟨umask, humask, h⟩ := eq_ok_of_bind h
      obtain ⟨millis, hmillis, h⟩ := eq_ok_of_bind h
      cases h
      rw [Bool.not_eq_true, Option.isSome_eq_false_iff, Option.isNone_iff_eq_none] at hnameservice
      exact ⟨hnameservice, uri, ⟨text, namesText_iff.mpr htext, huri⟩,
        ⟨haddress, rfl, rfl, rfl, rfl, hhome, humask, hmillis⟩⟩
  · rintro ⟨hnameservice, uri, ⟨text, htext, huri⟩, h⟩
    rw [namesText_iff] at htext
    obtain ⟨address, scheme, authority, user, urlPrefix, home, umask, millis⟩ := profile
    obtain ⟨haddress, hscheme, hauthority, huser, hprefix, hhome, humask, hmillis⟩ := h
    dsimp only at haddress hscheme hauthority huser hprefix hhome humask hmillis
    subst hscheme hauthority huser hprefix
    rw [userName] at hhome
    rw [Settings.profile, hnameservice, htext, humask, hmillis]
    simp only [bind, Except.bind, huri, haddress, hhome]
    rfl

theorem NamesUri.unique {uri' : Uri} (h : settings.NamesUri uri) (h' : settings.NamesUri uri') :
    uri = uri' := by
  obtain ⟨text, htext, huri⟩ := h
  obtain ⟨text', htext', huri'⟩ := h'
  rw [namesText_iff] at htext htext'
  rw [htext] at htext'
  cases htext'
  rw [huri] at huri'
  exact Except.ok.inj huri'

/-- The settings are complete exactly if there is a profile. -/
theorem exists_ready_iff : (∃ uri, settings.Ready processUser uri) ↔
    ∃ profile, settings.profile processUser = .ok profile := by
  constructor
  · rintro ⟨uri, h⟩
    obtain ⟨address, haddress⟩ := hasAddress_iff.mp h.address
    obtain ⟨home, hhome⟩ := home_ok_iff.mpr h.home
    obtain ⟨umask, humask⟩ := umask_ok_iff.mpr h.umask
    obtain ⟨millis, hmillis⟩ := deadNodeMillis_ok_iff.mpr h.expiry
    let profile : Profile := {
      address, scheme := uri.scheme, authority := uri.host
      user := settings.userName processUser uri, urlPrefix := prefixOf uri address.port
      home, umask, deadNodeMillis := millis }
    have hprofiles : settings.Profiles processUser uri profile :=
      ⟨haddress, rfl, rfl, rfl, rfl, hhome, humask, hmillis⟩
    exact ⟨profile, profile_eq_ok_iff.mpr ⟨h.standalone, uri, h.named, hprofiles⟩⟩
  · rintro ⟨profile, hprofile⟩
    obtain ⟨hnameservice, uri, hnamed, h⟩ := profile_eq_ok_iff.mp hprofile
    refine ⟨uri, hnameservice, hnamed, hasAddress_iff.mpr ⟨_, h.address⟩, ?_,
      umask_ok_iff.mp ⟨_, h.umask⟩, deadNodeMillis_ok_iff.mp ⟨_, h.deadNodeMillis⟩⟩
    rw [← h.user]
    exact home_ok_iff.mp ⟨_, h.home⟩

/-! What is done with the authority. -/

section Runs

variable {link : Link σ} {state middle next : σ} {e : Error} {reply : Except Error Body}

/-- What the reply to the first request makes of a profile. -/
def probed (profile : Profile) : Except Error Body → Except Error Session
  | .error e => .error (e.prepend "get_server_defaults")
  | .ok (.reply (.getServerDefaults defaults)) =>
    .ok { profile, workingDirectory := profile.home, blockSize := defaults.blockSize }
  | .ok other => .error ⟨.io, s!"get_server_defaults: unexpected response {other.kind.name}", none⟩

theorem run_probe (h : (link.call .getServerDefaults).run.run state = (reply, next)) :
    (probe profile link).run.run state = (probed profile reply, next) := by
  have hcall : (Session.call link "get_server_defaults" .getServerDefaults).run.run state = _ :=
    Session.run_call h
  cases reply with
  | error e => exact Over.run_bind_of_error hcall
  | ok body =>
    refine (Over.run_bind_of_ok hcall).trans ?_
    rw [probed.eq_def]
    split <;> rename_i heq
    · cases heq
      rfl
    · split <;> rename_i heq'
      · cases heq'
      · cases heq'
        exact absurd rfl (heq _)
      · cases heq'
        rfl

theorem run_connect_of_no_profile (h : settings.profile processUser = .error e) :
    (settings.connect processUser link).run.run state = (.error (e.prepend "connect"), state) := by
  have hprofile : (connect.ofExcept (settings.profile processUser) : Over σ Profile).run.run state =
      (.error e, state) := by
    rw [h]
    rfl
  rw [connect, Over.run_within, Over.run_bind_of_error hprofile]
  rfl

/-- With a profile it is the authority that decides. -/
theorem run_connect_of_profile (h : settings.profile processUser = .ok profile) :
    (settings.connect processUser link).run.run state =
      (Over.within "connect" do
        link.start profile.address profile.user
        tryCatch (probe profile link) fun e => do
          link.finish
          throw e).run.run state := by
  have hprofile : (connect.ofExcept (settings.profile processUser) : Over σ Profile).run.run state =
      (.ok profile, state) := by
    rw [h]
    rfl
  rw [connect, Over.run_within, Over.run_within, Over.run_bind_of_ok hprofile]

theorem run_connect_of_unreached (h : settings.profile processUser = .ok profile)
    (hstart : (link.start profile.address profile.user).run.run state = (.error e, next)) :
    (settings.connect processUser link).run.run state = (.error (e.prepend "connect"), next) := by
  rw [run_connect_of_profile h, Over.run_within, Over.run_bind_of_error hstart]
  rfl

/-- What was reached is let go of unless the first request gets the defaults. -/
theorem run_connect_of_reached (h : settings.profile processUser = .ok profile)
    (hstart : (link.start profile.address profile.user).run.run state = (.ok (), middle))
    (hcall : (link.call .getServerDefaults).run.run middle = (reply, next)) :
    (settings.connect processUser link).run.run state =
      match probed profile reply with
      | .ok s => (.ok s, next)
      | .error e => (.error (e.prepend "connect"), (link.finish.run next).2) := by
  rw [run_connect_of_profile h, Over.run_within, Over.run_bind_of_ok hstart, Over.run_tryCatch,
    run_probe hcall]
  cases probed profile reply <;> rfl

/-- How an opening can go: what comes out, and the contacts with the authority. A failure comes out
with its number and its cause (`Error.errno_prepend`, `Error.cause_prepend`). -/
inductive Opens (settings : Settings) (processUser : String) :
    Except Error Session → List Contact → Prop where
  | refused {e : Error} (unready : ¬∃ uri, settings.Ready processUser uri) :
      Opens settings processUser (.error (e.prepend "connect")) []
  | unreached {uri : Uri} {profile : Profile} {e : Error} (ready : settings.Ready processUser uri)
      (profiles : settings.Profiles processUser uri profile) :
      Opens settings processUser (.error (e.prepend "connect"))
        [.opened profile.address profile.user (.error e)]
  | answered {uri : Uri} {profile : Profile} {defaults : ServerDefaults}
      (ready : settings.Ready processUser uri)
      (profiles : settings.Profiles processUser uri profile) :
      Opens settings processUser
        (.ok { profile, workingDirectory := profile.home, blockSize := defaults.blockSize })
        [.opened profile.address profile.user (.ok ()),
          .asked ⟨.getServerDefaults, .ok (.reply (.getServerDefaults defaults))⟩]
  | failed {uri : Uri} {profile : Profile} {e : Error} (ready : settings.Ready processUser uri)
      (profiles : settings.Profiles processUser uri profile) :
      Opens settings processUser (.error ((e.prepend "get_server_defaults").prepend "connect"))
        [.opened profile.address profile.user (.ok ()), .asked ⟨.getServerDefaults, .error e⟩,
          .closed]
  | unexpected {uri : Uri} {profile : Profile} {body : Body}
      (ready : settings.Ready processUser uri)
      (profiles : settings.Profiles processUser uri profile)
      (other : ∀ defaults, body ≠ .reply (.getServerDefaults defaults)) :
      Opens settings processUser
        (.error (Error.prepend "connect"
          ⟨.io, s!"get_server_defaults: unexpected response {body.kind.name}", none⟩))
        [.opened profile.address profile.user (.ok ()), .asked ⟨.getServerDefaults, .ok body⟩,
          .closed]

/-- The reply to the first request tells how an opening goes on behind it. -/
theorem opens_of_reached {uri : Uri} (ready : settings.Ready processUser uri)
    (profiles : settings.Profiles processUser uri profile) (reply : Except Error Body) :
    match probed profile reply with
    | .ok s => Opens settings processUser (.ok s)
        [.opened profile.address profile.user (.ok ()), .asked ⟨.getServerDefaults, reply⟩]
    | .error e => Opens settings processUser (.error (e.prepend "connect"))
        [.opened profile.address profile.user (.ok ()), .asked ⟨.getServerDefaults, reply⟩,
          .closed] := by
  cases reply with
  | error e => exact .failed ready profiles
  | ok body =>
    by_cases hdefaults : ∃ defaults, body = .reply (.getServerDefaults defaults)
    · obtain ⟨defaults, rfl⟩ := hdefaults
      exact .answered ready profiles
    · have hother : ∀ defaults, body ≠ .reply (.getServerDefaults defaults) :=
        fun defaults h => hdefaults ⟨defaults, h⟩
      have hprobed : probed profile (.ok body) =
          .error ⟨.io, s!"get_server_defaults: unexpected response {body.kind.name}", none⟩ := by
        rw [probed.eq_def]
        split <;> rename_i heq
        · cases heq
        · cases heq
          exact absurd rfl (hother _)
        · cases heq
          rfl
      rw [hprobed]
      exact .unexpected ready profiles hother

theorem Opens.exists_prepend {outcome : Except Error Session} {contacts : List Contact}
    (h : Opens settings processUser outcome contacts) (he : outcome = .error e) :
    ∃ inner : Error, e = inner.prepend "connect" := by
  cases h <;> cases he <;> exact ⟨_, rfl⟩

theorem Opens.exists_opened_iff {outcome : Except Error Session} {contacts : List Contact}
    (h : Opens settings processUser outcome contacts) :
    (∃ address user result, .opened address user result ∈ contacts) ↔
      ∃ uri, settings.Ready processUser uri := by
  cases h with
  | refused unready => exact iff_of_false (by rintro ⟨address, user, result, ⟨⟩⟩) unready
  | unreached ready | answered ready | failed ready | unexpected ready =>
    exact iff_of_true ⟨_, _, _, List.mem_cons_self⟩ ⟨_, ready⟩

/-- What is reached is what the settings say, and what is opened is theirs. -/
theorem Opens.of_opened {outcome : Except Error Session} {contacts : List Contact}
    {address : Address} {user : String} {result : Except Error Unit}
    (h : Opens settings processUser outcome contacts)
    (hopened : .opened address user result ∈ contacts) :
    ∃ uri profile, settings.Ready processUser uri ∧ settings.Profiles processUser uri profile ∧
      address = profile.address ∧ user = profile.user ∧
      ∀ s, outcome = .ok s → s.profile = profile ∧ s.workingDirectory = profile.home := by
  cases h with
  | refused => cases hopened
  | unreached ready profiles | answered ready profiles | failed ready profiles
  | unexpected ready profiles =>
    -- Of all the contacts only the first is an opening.
    simp only [List.mem_cons, Contact.opened.injEq, reduceCtorEq, List.not_mem_nil,
      or_false] at hopened
    obtain ⟨rfl, rfl, -⟩ := hopened
    refine ⟨_, _, ready, profiles, rfl, rfl, ?_⟩
    rintro s ⟨⟩ <;> exact ⟨rfl, rfl⟩

theorem exists_run_opens (settings : Settings) (processUser : String) (link : Link σ)
    (state : σ) : ∃ (outcome : Except Error Session) (next : σ) (contacts : List Contact),
      (settings.connect processUser link).run.run state = (outcome, next) ∧
      (settings.connect processUser link.watched).run.run (state, []) =
        (outcome, next, contacts) ∧
      Opens settings processUser outcome contacts ∧ (contacts = [] → next = state) := by
  cases hprofile : settings.profile processUser with
  -- The settings are refused, whatever the link would do.
  | error e =>
    refine ⟨_, state, [], run_connect_of_no_profile hprofile, run_connect_of_no_profile hprofile,
      .refused ?_, fun _ => rfl⟩
    rw [exists_ready_iff, hprofile]
    rintro ⟨profile, ⟨⟩⟩
  | ok profile =>
    obtain ⟨-, uri, hnamed, profiles⟩ := profile_eq_ok_iff.mp hprofile
    obtain ⟨uri', ready⟩ := exists_ready_iff.mpr ⟨profile, hprofile⟩
    obtain rfl := ready.named.unique hnamed
    -- Both runs do the same: beside the state of the one the other keeps the contacts.
    obtain ⟨result, middle, hstart⟩ : ∃ result middle,
        (link.start profile.address profile.user).run.run state = (result, middle) := ⟨_, _, rfl⟩
    have hwatched := Link.run_start_watched [] hstart
    cases result with
    | error e =>
      exact ⟨_, middle, _, run_connect_of_unreached hprofile hstart,
        run_connect_of_unreached hprofile hwatched, .unreached ready profiles, by simp⟩
    | ok _ =>
      obtain ⟨reply, last, hcall⟩ : ∃ reply last,
          (link.call .getServerDefaults).run.run middle = (reply, last) := ⟨_, _, rfl⟩
      have hopens := opens_of_reached ready profiles reply
      have hrun := run_connect_of_reached hprofile hstart hcall
      have hrun' := run_connect_of_reached hprofile hwatched
        (Link.run_call_watched [.opened profile.address profile.user (.ok ())] hcall)
      cases hprobed : probed profile reply with
      | ok s =>
        rw [hprobed] at hrun hrun' hopens
        exact ⟨_, _, _, hrun, hrun', hopens, by simp⟩
      | error e =>
        rw [hprobed] at hrun hrun' hopens
        exact ⟨_, _, _, hrun, hrun', hopens, by simp⟩

/-- The authority is reached exactly if the settings are complete and in order, and then once. All
that is sent is one request for the defaults. A session is opened exactly if they come back; else
the error is that of the failure, with its number, and what was opened is let go of. -/
theorem opened_iff_ready (settings : Settings) (processUser : String) (link : Link σ)
    (state : σ) : ∃ (outcome : Except Error Session) (next : σ) (contacts : List Contact),
      (settings.connect processUser link).run.run state = (outcome, next) ∧
      (settings.connect processUser link.watched).run.run (state, []) =
        (outcome, next, contacts) ∧
      Opens settings processUser outcome contacts ∧
      ((∃ address user result, .opened address user result ∈ contacts) ↔
        ∃ uri, settings.Ready processUser uri) ∧
      (contacts = [] → next = state) ∧
      ∀ e, outcome = .error e → ∃ rest, e.message = "connect: " ++ rest := by
  obtain ⟨outcome, next, contacts, hrun, hwatched, hopens, hnext⟩ :=
    exists_run_opens settings processUser link state
  refine ⟨outcome, next, contacts, hrun, hwatched, hopens, hopens.exists_opened_iff, hnext, ?_⟩
  intro e he
  obtain ⟨inner, rfl⟩ := hopens.exists_prepend he
  exact ⟨inner.message, inner.message_prepend "connect"⟩

end Runs

end Settings

end MetaFs
