import Mathlib
import MetaFs.Proofs.Urls
/-! The port of a URL. Where a text writes one is told without reading the rest of it, and what is
read is that port, except that none is kept which goes without saying for the scheme. -/

namespace MetaFs

theorem Numeral.continue?_isSome {digits : List Char}
    (h : ∀ c ∈ digits, ('0' ≤ c && c ≤ '9') = true) (high : ℕ) :
    ∃ n, Numeral.continue? 10 high digits = some n := by
  induction digits generalizing high with
  | nil => exact ⟨high, rfl⟩
  | cons c digits ih =>
    have hc := h c List.mem_cons_self
    simp only [Bool.and_eq_true, decide_eq_true_eq, Char.le_def, UInt32.le_iff_toNat_le] at hc
    have hdigit : Numeral.digit? 10 c = some (c.toNat - 48) := by
      have hrange : 48 ≤ c.toNat ∧ c.toNat ≤ 57 := hc
      simp only [Numeral.digit?, hrange.1, hrange.2, decide_true, Bool.and_self, if_true]
      rw [if_pos (by omega)]
    rw [Numeral.continue?, hdigit]
    exact ih (fun d hd => h d (List.mem_cons_of_mem c hd)) _

namespace Url

/-! The scheme and the authority of a URL are there before its path is followed. -/

theorem frame_withTail (url : Url) (tail : List Char) :
    (withTail url tail).scheme = url.scheme ∧ (withTail url tail).authority = url.authority := by
  obtain ⟨query, fragment, htail⟩ := exists_withTail url tail
  rw [htail]
  exact ⟨rfl, rfl⟩

theorem frame_follow (url : Url) (above : List Segment) (text : List Char) :
    (follow url above text).scheme = url.scheme ∧
      (follow url above text).authority = url.authority :=
  frame_withTail _ _

theorem frame_followAuthority (url : Url) (text : List Char) :
    (followAuthority url text).scheme = url.scheme ∧
      (followAuthority url text).authority = url.authority := by
  cases text with
  | nil =>
    rw [followAuthority]
    split_ifs
    · exact frame_follow url [] []
    · exact frame_withTail _ []
  | cons c rest =>
    rw [followAuthority]
    split_ifs
    all_goals exact frame_withTail _ _

/-- The port is that of the authority. -/
theorem port_of_authority {url other : Url} (h : url.authority = other.authority) :
    url.port = other.port :=
  congrArg (Option.bind · Authority.port) h

theorem port_fileUrl {url : Url} {host : List Char}
    (h : url.scheme = (fileUrl host).scheme ∧ url.authority = (fileUrl host).authority) :
    url.scheme = fileScheme ∧ url.port = none :=
  ⟨h.1, port_of_authority h.2⟩

theorem port_readFileHost {text : List Char} {url : Url} (h : readFileHost text = .ok url) :
    url.scheme = fileScheme ∧ url.port = none := by
  rw [readFileHost] at h
  dsimp only at h
  generalize (cut (fun c => isSlash c || endsPath c) text).1 = hostText at h
  generalize (cut (fun c => isSlash c || endsPath c) text).2 = rest at h
  -- What looks like a host may be a drive, and then belongs to the path.
  by_cases hdrive : Path.isDriveLetter hostText = true
  · rw [if_pos hdrive] at h
    cases h
    exact port_fileUrl (frame_follow _ _ _)
  rw [if_neg hdrive] at h
  by_cases hempty : hostText.isEmpty = true
  case' pos => rw [if_pos hempty] at h
  case' neg => rw [if_neg hempty] at h
  all_goals
    obtain ⟨host, -, h⟩ := eq_ok_of_bind h
    have hurl := frame_followAuthority (fileUrl host) rest
    split_ifs at h
    · cases h
      exact port_fileUrl (frame_follow _ _ _)
    · cases h
      exact ⟨hurl.1, rfl⟩
    · cases h
      exact port_fileUrl hurl

/-- A file URL has no port. -/
theorem port_readFile {text : List Char} {url : Url} (h : readFile none text = .ok url) :
    url.scheme = fileScheme ∧ url.port = none := by
  cases text with
  | nil =>
    cases h
    exact ⟨rfl, rfl⟩
  | cons c rest =>
    rw [readFile.eq_def] at h
    dsimp only at h
    split at h
    · split at h
      · split_ifs at h
        · exact port_readFileHost h
        · cases h
          exact port_fileUrl (frame_follow _ _ _)
      · cases h
        exact port_fileUrl (frame_follow _ _ _)
    · cases h
      exact port_fileUrl (frame_follow _ _ _)

/-! Where a text writes a port. -/

/-- What ends an authority. -/
def endsAuthority (special : Bool) (c : Char) : Bool :=
  c = '/' || endsPath c || (special && c = '\\')

/-- What follows the slashes behind a scheme, if an authority does. -/
def behindSlashes? (scheme rest : List Char) : Option (List Char) :=
  if isFile scheme then none
  else if isWeb scheme then some (rest.dropWhile isSlash)
  else
    match rest with
    | '/' :: '/' :: rest => some rest
    | _ => none

/-- The host and the port of an authority as they are written, without the user. -/
def hostAndPort (special : Bool) (text : List Char) : List Char :=
  ((cut (endsAuthority special) text).1.reverse.takeWhile (· ≠ '@')).reverse

/-- What follows the first colon that is not in brackets. -/
def behindColon? (inBrackets : Bool) : List Char → Option (List Char)
  | [] => none
  | c :: rest =>
    if c = ':' && !inBrackets then some rest
    else behindColon? (if c = '[' then true else if c = ']' then false else inBrackets) rest

/-- The port that an authority writes. A backslash ends it, whatever the scheme is, and no
characters at all are no port. -/
def portIn? (special : Bool) (text : List Char) : Option (List Char) :=
  ((behindColon? false (hostAndPort special text)).map (·.takeWhile (· ≠ '\\'))).filter (· ≠ [])

/-- The port that a text writes, digits or not. -/
def portText? (text : String) : Option (List Char) := do
  let (scheme, rest) ← splitScheme (tidy text.toList)
  portIn? (isSpecial scheme) (← behindSlashes? scheme rest)

section Readers

variable {special : Bool} {scheme text rest : List Char}

theorem splitUserInfo_rest {a : Authority} (h : splitUserInfo special text = .ok (a, rest)) :
    rest = hostAndPort special text ++ (cut (endsAuthority special) text).2 := by
  rw [splitUserInfo] at h
  dsimp only at h
  split at h
  -- Without an at sign the whole authority is the host and the port.
  · rename_i hback
    cases h
    have hall := List.takeWhile_append_dropWhile (p := fun c => decide (c ≠ '@'))
      (l := (cut (endsAuthority special) text).1.reverse)
    replace hback : List.dropWhile (fun c => decide (c ≠ '@'))
        (cut (endsAuthority special) text).1.reverse = [] := hback
    rw [hback, List.append_nil] at hall
    rw [hostAndPort, hall, List.reverse_reverse]
    exact List.takeWhile_append_dropWhile.symm
  · split_ifs at h
    · cases h
      rfl
    · cases h
      rfl

/-- What is cut off ends an authority, or there is nothing. -/
def Stops (special : Bool) (rest : List Char) : Prop :=
  ∀ c ∈ rest.head?, endsAuthority special c = true

theorem mem_of_behindColon? {inBrackets : Bool} {host port : List Char}
    (h : behindColon? inBrackets host = some port) : ∀ c ∈ port, c ∈ host := by
  induction host generalizing inBrackets with
  | nil => cases h
  | cons c host ih =>
    rw [behindColon?] at h
    split_ifs at h
    · cases h
      exact fun d hd => List.mem_cons_of_mem c hd
    all_goals exact fun d hd => List.mem_cons_of_mem c (ih h d hd)

theorem splitHost_rest (inBrackets : Bool) {host : List Char}
    (hhost : ∀ c ∈ host, endsAuthority special c = false) (hrest : Stops special rest) :
    (splitHost special inBrackets (host ++ rest)).2 =
      match behindColon? inBrackets host with
      | some port => ':' :: port ++ rest
      | none => rest := by
  induction host generalizing inBrackets with
  | nil =>
    cases rest with
    | nil => rfl
    | cons c rest =>
      have hc : (c = '/' || endsPath c || special && c = '\\') = true := hrest c rfl
      rw [List.nil_append, splitHost, hc, Bool.true_or, if_pos rfl]
      rfl
  | cons c host ih =>
    have hc : (c = '/' || endsPath c || special && c = '\\') = false := hhost c List.mem_cons_self
    rw [List.cons_append, splitHost, hc, Bool.false_or, behindColon?]
    by_cases hcolon : (c = ':' && !inBrackets) = true
    · rw [if_pos hcolon, if_pos hcolon]
      simp only [Bool.and_eq_true, decide_eq_true_eq] at hcolon
      rw [hcolon.1]
      rfl
    · rw [if_neg hcolon, if_neg hcolon]
      exact ih _ fun d hd => hhost d (List.mem_cons_of_mem c hd)

theorem endsAuthority_eq_false {c : Char} (h : endsAuthority special c = false) :
    c ≠ '/' ∧ endsPath c = false := by
  simp only [endsAuthority, Bool.or_eq_false_iff, decide_eq_false_iff_not] at h
  exact h.1

/-- Only digits stand before what ends a port. -/
theorem takeWhile_isDigit {digits : List Char} (hrest : Stops special rest)
    (hdigits : ∀ c ∈ digits, endsAuthority special c = false)
    (hstops : ∀ c ∈ ((digits ++ rest).dropWhile fun c => '0' ≤ c && c ≤ '9').head?,
      (isSlash c || endsPath c) = true) :
    (digits ++ rest).takeWhile (fun c => '0' ≤ c && c ≤ '9') = digits.takeWhile (· ≠ '\\') := by
  induction digits with
  | nil =>
    cases rest with
    | nil => rfl
    | cons c rest =>
      have hc : endsAuthority special c = true := hrest c rfl
      -- None of the four is a digit.
      simp only [endsAuthority, endsPath, Bool.or_eq_true, Bool.and_eq_true,
        decide_eq_true_eq] at hc
      rcases hc with (rfl | rfl | rfl) | ⟨-, rfl⟩ <;> rfl
  | cons c digits ih =>
    rw [List.cons_append] at hstops ⊢
    obtain ⟨hslash, hends⟩ := endsAuthority_eq_false (hdigits c List.mem_cons_self)
    by_cases hc : ('0' ≤ c && c ≤ '9') = true
    · have hback : decide (c ≠ '\\') = true := by
        rw [decide_eq_true_eq]
        rintro rfl
        cases hc
      rw [List.dropWhile_cons, if_pos hc] at hstops
      rw [List.takeWhile_cons, if_pos hc, List.takeWhile_cons, if_pos hback,
        ih (fun d hd => hdigits d (List.mem_cons_of_mem c hd)) hstops]
    -- A first character that is no digit ends the port, and only a backslash can do so here.
    · rw [List.dropWhile_cons, if_neg hc] at hstops
      have hstop := hstops c rfl
      simp only [isSlash, hends, Bool.or_false, Bool.or_eq_true, decide_eq_true_eq] at hstop
      obtain rfl := hstop.resolve_left hslash
      rfl

/-- A port is read from the digits up to what ends it. -/
theorem readPort_eq_ok {tail : List Char} {port : Option UInt16}
    (h : readPort scheme text = .ok (port, tail)) :
    (∀ c ∈ (text.dropWhile fun c => '0' ≤ c && c ≤ '9').head?,
      (isSlash c || endsPath c) = true) ∧
    ∃ p : UInt16, Numeral.continue? 10 0 (text.takeWhile fun c => '0' ≤ c && c ≤ '9') =
        some p.toNat ∧
      port = if (text.takeWhile fun c => '0' ≤ c && c ≤ '9') = [] ∨
        defaultPort? scheme = some p.toNat then none else some p := by
  obtain ⟨n, hn⟩ := Numeral.continue?_isSome (fun c hc => List.mem_takeWhile_imp
    (p := fun c => '0' ≤ c && c ≤ '9') (l := text) hc) 0
  rw [readPort] at h
  simp only [hn, Option.getD_some, List.isEmpty_iff, Bool.or_eq_true, decide_eq_true_eq] at h
  split_ifs at h with hbad husual
  all_goals
    rw [not_or, not_lt, Bool.not_eq_true', Bool.not_eq_false] at hbad
    obtain ⟨hfits, hstops⟩ := hbad
    have hp : (UInt16.ofNat n).toNat = n := UInt16.toNat_ofNat_of_lt' (Nat.lt_succ_of_le hfits)
    refine ⟨?_, UInt16.ofNat n, by rw [hn, hp], ?_⟩
    · intro c hc
      obtain ⟨after, hafter⟩ := List.head?_eq_some_iff.mp hc
      rw [hafter] at hstops
      exact hstops
    · rw [hp]
      cases h
      first
        | exact (if_pos husual).symm
        | exact (if_neg husual).symm

/-- What becomes of a port that is written: a number that fits, but none where the scheme stands for
it anyway. -/
def TakesPort (scheme : List Char) (written : Option (List Char)) (port : Option UInt16) : Prop :=
  match written with
  | none => port = none
  | some digits => ∃ p : UInt16, Numeral.digits? 10 digits = some p.toNat ∧
      port = if defaultPort? scheme = some p.toNat then none else some p

theorem takesPort_readPort {digits tail : List Char} {port : Option UInt16}
    (hrest : Stops special rest) (hdigits : ∀ c ∈ digits, endsAuthority special c = false)
    (h : readPort scheme (digits ++ rest) = .ok (port, tail)) :
    TakesPort scheme ((some (digits.takeWhile (· ≠ '\\'))).filter (· ≠ [])) port := by
  obtain ⟨hstops, p, hp, hport⟩ := readPort_eq_ok h
  rw [takeWhile_isDigit hrest hdigits hstops] at hp hport
  by_cases hempty : digits.takeWhile (· ≠ '\\') = []
  · rw [if_pos (Or.inl hempty)] at hport
    rw [hempty]
    exact hport
  · have hfilter : (some (digits.takeWhile (· ≠ '\\'))).filter (· ≠ []) =
        some (digits.takeWhile (· ≠ '\\')) := by
      rw [Option.filter_some, if_pos (by simpa using hempty)]
    rw [hfilter]
    refine ⟨p, ?_, ?_⟩
    · rw [Numeral.digits?, if_neg (by simpa [List.isEmpty_iff] using hempty), hp]
    · rw [hport]
      simp only [hempty, false_or]

theorem hostAndPort_spec (special : Bool) (text : List Char) :
    (∀ c ∈ hostAndPort special text, endsAuthority special c = false) ∧
    Stops special (cut (endsAuthority special) text).2 := by
  constructor
  · intro c hc
    rw [hostAndPort, List.mem_reverse] at hc
    have hcut := (List.takeWhile_sublist _).mem hc
    rw [List.mem_reverse] at hcut
    simpa using List.mem_takeWhile_imp hcut
  · intro c hc
    have hhead := List.head?_dropWhile_not (fun c => !endsAuthority special c) text
    replace hc : (text.dropWhile fun c => !endsAuthority special c).head? = some c := hc
    rw [hc] at hhead
    simpa using hhead

/-- What stands behind the host is the port that is written, or no port is written. -/
theorem portIn?_of_splitHost (scheme : List Char) {host after : List Char}
    (h : splitHost special false
      (hostAndPort special text ++ (cut (endsAuthority special) text).2) = (host, after)) :
    (∀ digits, after = ':' :: digits → ∀ port tail, readPort scheme digits = .ok (port, tail) →
      TakesPort scheme (portIn? special text) port) ∧
    ((∀ digits, after ≠ ':' :: digits) → portIn? special text = none) := by
  obtain ⟨hhost, hrest⟩ := hostAndPort_spec special text
  have hafter := splitHost_rest false hhost hrest
  rw [h] at hafter
  dsimp only at hafter
  rw [portIn?]
  cases hcolon : behindColon? false (hostAndPort special text) with
  | none =>
    rw [hcolon] at hafter
    dsimp only at hafter
    refine ⟨?_, fun _ => rfl⟩
    rintro digits rfl
    have hends := hrest ':' (by rw [← hafter]; rfl)
    simp [endsAuthority, endsPath] at hends
  | some written =>
    rw [hcolon] at hafter
    refine ⟨?_, fun hno => absurd hafter (hno _)⟩
    rintro digits rfl port tail hread
    cases hafter
    exact takesPort_readPort hrest (fun c hc => hhost c (mem_of_behindColon? hcolon c hc)) hread

/-- Whatever reads the port, the path behind it leaves the authority alone. -/
theorem takesPort_of_followed {written : Option (List Char)} {userInfo : Authority}
    {host : List Char} {x : Except UrlError (Option UInt16 × List Char)} {url : Url}
    (hx : ∀ port tail, x = .ok (port, tail) → TakesPort scheme written port)
    (h : (x >>= fun found => .ok (followAuthority
      ⟨scheme, some ⟨userInfo.user, userInfo.password, host, found.1⟩, .rooted [], none, none⟩
        found.2)) = .ok url) :
    url.scheme = scheme ∧ TakesPort scheme written url.port := by
  obtain ⟨⟨port, tail⟩, hfound, h⟩ := eq_ok_of_bind h
  cases h
  obtain ⟨hscheme, hauthority⟩ := frame_followAuthority
    ⟨scheme, some ⟨userInfo.user, userInfo.password, host, port⟩, .rooted [], none, none⟩ tail
  refine ⟨hscheme, ?_⟩
  rw [Url.port, hauthority]
  exact hx port tail hfound

/-- The port of an authority is the one that is written behind its host. -/
theorem takesPort_readAuthority {url : Url} (h : readAuthority scheme text = .ok url) :
    url.scheme = scheme ∧ TakesPort scheme (portIn? (isSpecial scheme) text) url.port := by
  rw [readAuthority] at h
  obtain ⟨⟨userInfo, behind⟩, huser, h⟩ := eq_ok_of_bind h
  dsimp only at h
  obtain rfl := splitUserInfo_rest huser
  obtain ⟨⟨hostText, after⟩, hsplit⟩ : ∃ found, splitHost (isSpecial scheme) false
      (hostAndPort (isSpecial scheme) text ++ (cut (endsAuthority (isSpecial scheme)) text).2) =
        found := ⟨_, rfl⟩
  obtain ⟨hwritten, hnone⟩ := portIn?_of_splitHost scheme hsplit
  rw [hsplit] at h
  dsimp only at h
  by_cases hspecial : isSpecial scheme = true
  case' pos => rw [if_pos hspecial] at h
  case' neg => rw [if_neg hspecial] at h
  all_goals
    obtain ⟨host, -, h⟩ := eq_ok_of_bind h
    split_ifs at h
    · cases h
    · split at h
      · exact takesPort_of_followed (hwritten _ rfl) h
      · rename_i hno
        refine takesPort_of_followed (fun port tail hread => ?_) h
        cases hread
        rw [hnone hno]
        rfl

theorem takesPort_readScheme {url : Url} (h : readScheme none scheme rest = .ok url) :
    url.scheme = scheme ∧ TakesPort scheme
      ((behindSlashes? scheme rest).bind (portIn? (isSpecial scheme))) url.port := by
  rw [readScheme.eq_def] at h
  rw [behindSlashes?.eq_def]
  split_ifs at h ⊢ with hfile hweb
  · obtain ⟨hscheme, hport⟩ := port_readFile h
    exact ⟨hscheme.trans (of_decide_eq_true hfile).symm, hport⟩
  · exact takesPort_readAuthority h
  · split at h
    · exact takesPort_readAuthority h
    -- Without two slashes there is no authority.
    · rename_i rest hno
      obtain ⟨hscheme, hauthority⟩ := frame_follow ⟨scheme, none, .rooted [], none, none⟩ [] rest
      cases h
      refine ⟨hscheme, ?_⟩
      split
      · rename_i heq
        cases heq
        exact absurd rfl (hno _)
      · exact port_of_authority hauthority
    · rename_i hno _
      obtain ⟨hscheme, hauthority⟩ := frame_withTail ⟨scheme, none, .plain (Percent.encode isControl
        (cut endsPath rest).1), none, none⟩ (cut endsPath rest).2
      cases h
      refine ⟨hscheme, ?_⟩
      split
      · exact absurd rfl (hno _)
      · exact port_of_authority hauthority

/-- A URL that is read by itself has the scheme and the port that its text writes. -/
theorem takesPort_parse {text : String} {url : Url} (h : parse none text = .ok url) :
    (∃ rest, splitScheme (tidy text.toList) = some (url.scheme, rest)) ∧
      TakesPort url.scheme (portText? text) url.port := by
  rw [parse.eq_def] at h
  dsimp only at h
  rw [portText?]
  cases hsplit : splitScheme (tidy text.toList) with
  | none =>
    rw [hsplit] at h
    cases h
  | some found =>
    obtain ⟨scheme, rest⟩ := found
    rw [hsplit] at h
    obtain ⟨rfl, hport⟩ := takesPort_readScheme h
    exact ⟨⟨rest, rfl⟩, hport⟩

example : portText? "hdfs://alice:1@[::1]:9000/x:2" = some ['9', '0', '0', '0'] := by
  decide +kernel

end Readers

end Url

end MetaFs
