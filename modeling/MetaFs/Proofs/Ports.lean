import Mathlib
import MetaFs.Proofs.Opening
import MetaFs.Proofs.UrlPorts
/-! The address that is reached: its host, and its port, which is the first one that is given. A URI
may write a port that does not count. -/

namespace MetaFs

theorem Numeral.unsigned?_lt {bound n : ℕ} {text : String}
    (h : Numeral.unsigned? bound text = some n) : n < bound := by
  rw [Numeral.unsigned?] at h
  obtain ⟨m, -, h⟩ := Option.bind_eq_some_iff.mp h
  split_ifs at h with hlt
  cases h
  exact hlt

namespace Address

/-- The host that an address writes before its first colon. -/
def hostText (text : String) : String :=
  String.ofList (text.toList.takeWhile (· ≠ ':'))

/-- The port that an address writes: all that follows its first colon. -/
def portText? (text : String) : Option (List Char) :=
  (text.toList.dropWhile (· ≠ ':')).tail?

/-- An address without a colon gets the given port, and any other one has to write a port. -/
theorem parse_spec (text : String) (given : Option UInt16) :
    match parse text given with
    | .error e => e.errno = .inval
    | .ok address => address.host = hostText text ∧
        match portText? text with
        | none => address.port = portOr given
        | some digits => address.port ≠ 0 ∧
            Numeral.unsigned? UInt16.size (String.ofList digits) = some address.port.toNat := by
  rw [parse, portText?, hostText]
  dsimp only
  cases hrest : text.toList.dropWhile (· ≠ ':') with
  | nil =>
    have hall := List.takeWhile_append_dropWhile (p := (· ≠ ':')) (l := text.toList)
    rw [hrest, List.append_nil] at hall
    rw [hall, String.ofList_toList]
    exact ⟨rfl, rfl⟩
  | cons c digits =>
    dsimp only [List.tail?_cons]
    cases hport : Numeral.unsigned? UInt16.size (String.ofList digits) with
    | none => rfl
    | some n =>
      dsimp only
      split_ifs with hzero
      · rfl
      · have hn : n < UInt16.size := Numeral.unsigned?_lt hport
        have hvalue : (UInt16.ofNat n).toNat = n := UInt16.toNat_ofNat_of_lt' hn
        refine ⟨rfl, ?_, by rw [hvalue]⟩
        rw [ne_eq, ← UInt16.toNat_inj, hvalue]
        exact hzero

end Address

namespace Settings

variable {settings : Settings} {processUser text : String} {uri : Uri} {address : Address}

/-- The configured port, if an address with a port is configured. -/
def configuredPort? (settings : Settings) : Option (List Char) :=
  (settings.conf.get? Key.rpcAddress).bind Address.portText?

/-- The host of the configured address, or else that of the URI. -/
def hostOf (settings : Settings) (uri : Uri) : String :=
  match settings.conf.get? Key.rpcAddress with
  | some given => Address.hostText given
  | none => uri.host

/-- The port is the first one that is given: in the configured address, in the text that names the
authority, by the caller, or else the usual one. -/
def FirstPort (settings : Settings) (text : String) (port : UInt16) : Prop :=
  match settings.configuredPort?, Url.portText? text with
  | some digits, _ => Numeral.unsigned? UInt16.size (String.ofList digits) = some port.toNat
  | none, some digits => Numeral.digits? 10 digits = some port.toNat
  | none, none => port = Address.portOr settings.port

def IsPort (value : Option ℕ) : Prop :=
  ∃ n, value = some n ∧ 0 < n ∧ n < UInt16.size

theorem isPort_of_value {value : Option ℕ} {port : UInt16} (h : value = some port.toNat)
    (hzero : port ≠ 0) : IsPort value := by
  refine ⟨_, h, ?_, port.toNat_lt⟩
  rwa [Nat.pos_iff_ne_zero, ne_eq, ← UInt16.toNat_zero, UInt16.toNat_inj]

/-- Each port that is written is a number from 1 to 65535. -/
structure PortsInRange (settings : Settings) (text : String) : Prop where
  configured : ∀ digits ∈ settings.configuredPort?,
    IsPort (Numeral.unsigned? UInt16.size (String.ofList digits))
  named : ∀ digits ∈ Url.portText? text, IsPort (Numeral.digits? 10 digits)

/-- The text that names the authority writes this number as the port. -/
def WritesPort (text : String) (n : ℕ) : Prop :=
  ∃ digits ∈ Url.portText? text, Numeral.digits? 10 digits = some n

/-- The port of the URI gets lost: it goes without saying for the scheme, and then the caller's port
or the usual one counts in its place. -/
def LosesPort (settings : Settings) (text : String) (uri : Uri) : Prop :=
  settings.configuredPort? = none ∧ ∃ port : UInt16, WritesPort text port.toNat ∧
    Url.defaultPort? uri.url.scheme = some port.toNat ∧ Address.portOr settings.port ≠ port

theorem address_spec (h : settings.address uri = .ok address) :
    address.host = settings.hostOf uri ∧
      match settings.configuredPort? with
      | none => address.port = Address.portOr (uri.port <|> settings.port)
      | some digits => address.port ≠ 0 ∧
          Numeral.unsigned? UInt16.size (String.ofList digits) = some address.port.toNat := by
  simp only [Settings.address] at h
  rw [hostOf, configuredPort?]
  cases hconf : settings.conf.get? Key.rpcAddress with
  | some given =>
    rw [hconf] at h
    have hspec := Address.parse_spec given (uri.port <|> settings.port)
    dsimp only at h
    rw [h] at hspec
    exact hspec
  | none =>
    rw [hconf] at h
    dsimp only at h
    split_ifs at h
    cases h
    exact ⟨rfl, rfl⟩

theorem takesPort_of_parse (h : Uri.parse text none false = .ok uri) :
    Url.TakesPort uri.url.scheme (Url.portText? text) uri.port := by
  obtain ⟨url, hurl, hsame, -⟩ := Uri.parse_eq_ok h
  rw [Uri.port, hsame]
  exact (Url.takesPort_parse hurl).2

theorem writesPort_iff {digits : List Char} {m n : ℕ} (h : Url.portText? text = some digits)
    (hm : Numeral.digits? 10 digits = some m) : WritesPort text n ↔ n = m := by
  simp [WritesPort, h, hm, eq_comm]

/-- What is read as a URI writes a port in range, or zero. -/
theorem inRange_iff (huri : Uri.parse text none false = .ok uri)
    (h : settings.address uri = .ok address) :
    settings.PortsInRange text ↔ ¬WritesPort text 0 := by
  obtain ⟨-, hport⟩ := address_spec h
  have hconfigured : ∀ digits ∈ settings.configuredPort?,
      IsPort (Numeral.unsigned? UInt16.size (String.ofList digits)) := by
    intro digits hdigits
    rw [Option.mem_def.mp hdigits] at hport
    exact isPort_of_value hport.2 hport.1
  have htakes := takesPort_of_parse huri
  cases hwritten : Url.portText? text with
  | none =>
    refine iff_of_true ⟨hconfigured, ?_⟩ ?_
    · rw [hwritten]
      rintro digits ⟨⟩
    · rintro ⟨digits, hdigits, -⟩
      rw [hwritten] at hdigits
      cases hdigits
  | some digits =>
    rw [hwritten] at htakes
    obtain ⟨port, hvalue, -⟩ := htakes
    rw [writesPort_iff hwritten hvalue]
    constructor
    · rintro ⟨-, hnamed⟩ hzero
      obtain ⟨n, hn, hpos, -⟩ := hnamed digits hwritten
      rw [hvalue, ← hzero] at hn
      cases hn
      exact lt_irrefl 0 hpos
    · intro hzero
      refine ⟨hconfigured, ?_⟩
      rw [hwritten]
      rintro digits ⟨⟩
      refine isPort_of_value hvalue ?_
      rintro rfl
      exact hzero rfl

theorem firstPort_iff_not_losesPort (huri : Uri.parse text none false = .ok uri)
    (h : settings.address uri = .ok address) (hzero : ¬WritesPort text 0) :
    settings.FirstPort text address.port ↔ ¬settings.LosesPort text uri := by
  obtain ⟨-, hport⟩ := address_spec h
  rw [FirstPort, LosesPort]
  cases hconfigured : settings.configuredPort? with
  | some digits =>
    rw [hconfigured] at hport
    exact iff_of_true hport.2 (by rintro ⟨⟨⟩, -⟩)
  | none =>
    rw [hconfigured] at hport
    dsimp only at hport
    have htakes := takesPort_of_parse huri
    cases hwritten : Url.portText? text with
    | none =>
      rw [hwritten] at htakes
      have hnone : uri.port = none := htakes
      rw [hnone] at hport
      refine iff_of_true hport ?_
      rintro ⟨-, port, ⟨digits, hdigits, -⟩, -⟩
      rw [hwritten] at hdigits
      cases hdigits
    | some digits =>
      rw [hwritten] at htakes
      obtain ⟨port, hvalue, htaken⟩ := htakes
      dsimp only
      -- A port that the scheme stands for is not kept, so that what the caller gives is used.
      by_cases husual : Url.defaultPort? uri.url.scheme = some port.toNat
      · rw [htaken, if_pos husual] at hport
        rw [hvalue, Option.some_inj, UInt16.toNat_inj]
        constructor
        · rintro hsame ⟨-, other, hwrites, -, hlost⟩
          rw [writesPort_iff hwritten hvalue, UInt16.toNat_inj] at hwrites
          exact hlost (hport.symm.trans (hsame.symm.trans hwrites.symm))
        · intro hkept
          by_contra hne
          exact hkept ⟨rfl, port, (writesPort_iff hwritten hvalue).mpr rfl, husual,
            fun hsame => hne (hsame.symm.trans hport.symm)⟩
      · rw [htaken, if_neg husual] at hport
        have hnonzero : port ≠ 0 := by
          rintro rfl
          exact hzero ((writesPort_iff hwritten hvalue).mpr rfl)
        have hsame : address.port = port := hport.trans (if_neg hnonzero)
        rw [hsame]
        refine iff_of_true hvalue ?_
        rintro ⟨-, other, hwrites, hother, -⟩
        rw [writesPort_iff hwritten hvalue] at hwrites
        rw [hwrites] at hother
        exact husual hother

theorem firstPort_and_inRange_iff (huri : Uri.parse text none false = .ok uri)
    (h : settings.address uri = .ok address) :
    settings.FirstPort text address.port ∧ settings.PortsInRange text ↔
      ¬WritesPort text 0 ∧ ¬settings.LosesPort text uri := by
  rw [inRange_iff huri h, and_comm]
  exact and_congr_right fun hzero => firstPort_iff_not_losesPort huri h hzero

theorem errno_of_nameNodeText {e : Error} (h : settings.nameNodeText = .error e) :
    e.errno = .inval := by
  rw [nameNodeText] at h
  split at h
  · cases h
  · split at h
    · cases h
    · cases h
      rfl

theorem errno_of_address {e : Error} (h : settings.address uri = .error e) : e.errno = .inval := by
  simp only [Settings.address] at h
  split at h
  · rename_i given _
    have hspec := Address.parse_spec given (uri.port <|> settings.port)
    rw [h] at hspec
    exact hspec
  · split_ifs at h
    cases h
    rfl

/-- Without an address the settings are refused, and with the number of a service above all. -/
theorem exists_error_of_no_address (processUser : String)
    (h : ∀ uri, settings.NamesUri uri → ¬settings.HasAddress uri) :
    ∃ e, settings.profile processUser = .error e ∧
      e.errno = if (settings.conf.get? Key.nameserviceId).isSome then .opnotsupp else .inval := by
  rw [Settings.profile]
  -- The checks are followed in the order in which they are made, up to that of the address.
  split_ifs with hnameservice
  · exact ⟨_, rfl, rfl⟩
  cases htext : settings.nameNodeText with
  | error e =>
    exact ⟨e, rfl, errno_of_nameNodeText htext⟩
  | ok text =>
    cases huri : Uri.parse text none false with
    | error e =>
      refine ⟨e, ?_, Uri.errno_of_parse huri⟩
      show (Uri.parse text none false >>= _) = _
      rw [huri]
      rfl
    | ok uri =>
      have hnone := h uri ⟨text, namesText_iff.mpr htext, huri⟩
      cases haddress : settings.address uri with
      | error e =>
        refine ⟨e, ?_, errno_of_address haddress⟩
        show (Uri.parse text none false >>= _) = _
        rw [huri]
        show (settings.address uri >>= _) = _
        rw [haddress]
        rfl
      | ok address => exact absurd (hasAddress_iff.mpr ⟨address, haddress⟩) hnone

/-- A port is written that is out of range. In a URI zero does not count. -/
inductive WritesBadPort (settings : Settings) : Prop where
  | configured {digits : List Char} (written : digits ∈ settings.configuredPort?)
      (bad : ¬IsPort (Numeral.unsigned? UInt16.size (String.ofList digits)))
  | named {text : String} {digits : List Char} (names : settings.NamesText text)
      (written : digits ∈ Url.portText? text) (bad : ¬IsPort (Numeral.digits? 10 digits))
      (nonzero : Numeral.digits? 10 digits ≠ some 0)

theorem not_hasAddress_of_bad (h : settings.WritesBadPort) (huri : settings.NamesUri uri) :
    ¬settings.HasAddress uri := by
  rw [hasAddress_iff]
  rintro ⟨address, haddress⟩
  obtain ⟨text, htext, huri⟩ := huri
  cases h with
  | configured written bad =>
    obtain ⟨-, hport⟩ := address_spec haddress
    rw [Option.mem_def.mp written] at hport
    exact bad (isPort_of_value hport.2 hport.1)
  | named names written bad nonzero =>
    rw [namesText_iff] at names htext
    obtain rfl := Except.ok.inj (names.symm.trans htext)
    have htakes := takesPort_of_parse huri
    rw [Option.mem_def.mp written] at htakes
    obtain ⟨port, hvalue, -⟩ := htakes
    refine bad (isPort_of_value hvalue ?_)
    rintro rfl
    exact nonzero hvalue

variable {σ : Type}

/-- The host that is reached is the configured one, or else that of the URI, and the port is the
first one that is given, unless the URI writes a port of zero or one that goes without saying. Any
other port out of range is refused before anything is reached. The port stands in the names of
objects unless it is the usual one. -/
theorem firstPort_iff (settings : Settings) (processUser : String) (link : Link σ) (state : σ) :
    ∃ (outcome : Except Error Session) (next : σ) (contacts : List Contact),
      (settings.connect processUser link).run.run state = (outcome, next) ∧
      (settings.connect processUser link.watched).run.run (state, []) =
        (outcome, next, contacts) ∧
      (∀ address user result, .opened address user result ∈ contacts →
        ∃ text uri, settings.NamesText text ∧ Uri.parse text none false = .ok uri ∧
          address.host = settings.hostOf uri ∧
          (settings.FirstPort text address.port ∧ settings.PortsInRange text ↔
            ¬WritesPort text 0 ∧ ¬settings.LosesPort text uri) ∧
          ∀ s, outcome = .ok s → s.profile.urlPrefix = prefixOf uri address.port) ∧
      (settings.WritesBadPort → contacts = [] ∧ ∃ e, outcome = .error e ∧
        e.errno =
          if (settings.conf.get? Key.nameserviceId).isSome then .opnotsupp else .inval) := by
  obtain ⟨outcome, next, contacts, hrun, hwatched, hopens, -⟩ :=
    exists_run_opens settings processUser link state
  refine ⟨outcome, next, contacts, hrun, hwatched, ?_, ?_⟩
  · intro address user result hopened
    obtain ⟨uri, profile, ready, profiles, rfl, -, hsession⟩ := hopens.of_opened hopened
    obtain ⟨text, htext, huri⟩ := ready.named
    refine ⟨text, uri, htext, huri, (address_spec profiles.address).1,
      firstPort_and_inRange_iff huri profiles.address, ?_⟩
    rintro s rfl
    rw [(hsession s rfl).1]
    exact profiles.urlPrefix
  · intro hbad
    obtain ⟨e, hprofile, herrno⟩ := exists_error_of_no_address processUser
      fun uri huri => not_hasAddress_of_bad hbad huri
    rw [run_connect_of_no_profile hprofile] at hwatched
    cases hwatched
    exact ⟨rfl, _, rfl, herrno⟩

/-- A port of zero is taken for none at all, and the caller's port is lost with it. -/
theorem opened_port_zero :
    Url.portText? "hdfs://nn:0" = some ['0'] ∧ ¬IsPort (Numeral.digits? 10 ['0']) ∧
    (Settings.connect { nameNode := some "hdfs://nn:0", port := some 9000 } "alice"
        Session.scripted.watched).run.run (Session.openingReplies, []) =
      (.ok Session.openedSession, [],
        [.opened ⟨"nn", 8020⟩ "alice" (.ok ()), .asked ⟨.getServerDefaults,
          .ok (.reply (.getServerDefaults ⟨134217728, 512, 65536, 3, 4096⟩))⟩]) := by
  refine ⟨by decide +kernel, ?_, by cbv⟩
  rintro ⟨n, hvalue, hpos, -⟩
  cases hvalue
  exact lt_irrefl 0 hpos

end Settings

end MetaFs
