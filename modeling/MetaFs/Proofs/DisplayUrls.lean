import Mathlib
import MetaFs.Proofs.FollowedPaths
import MetaFs.Proofs.UrlPorts
/-! What is read of a path that is pasted behind the scheme and the authority of a URL. The scheme
and the authority are read alike, whatever the path is, and then the path is followed from the root.
-/

namespace MetaFs.Url

variable {scheme auth text : List Char} {special : Bool} {c : Char}

/-! Authorities that nothing in them ends. -/

/-- A text of hosts and ports, without anything that ends or divides an authority. -/
def Undelimited (text : List Char) : Prop :=
  ∀ c ∈ text, c = ':' ∨ c = '[' ∨ c = ']' ∨ forbiddenInHost c = false

structure IsInner (c : Char) : Prop where
  notSlash : isSlash c = false
  notMark : endsPath c = false
  notAt : c ≠ '@'
  kept : isKept c = true

theorem isInner_of_not_forbidden (h : forbiddenInHost c = false) : IsInner c := by
  refine ⟨?_, endsPath_of_not_forbidden h, ?_, ?_⟩
  · by_contra hslash
    simp only [isSlash, Bool.not_eq_false, Bool.or_eq_true, decide_eq_true_eq] at hslash
    rcases hslash with rfl | rfl <;> cases h
  · rintro rfl
    cases h
  · simp only [isKept, Bool.and_eq_true, decide_eq_true_eq]
    refine ⟨⟨?_, ?_⟩, ?_⟩ <;> rintro rfl <;> cases h

theorem Undelimited.isInner (h : Undelimited text) : ∀ c ∈ text, IsInner c := by
  intro c hc
  rcases h c hc with rfl | rfl | rfl | hallowed
  · constructor <;> decide
  · constructor <;> decide
  · constructor <;> decide
  · exact isInner_of_not_forbidden hallowed

theorem IsInner.inside (h : IsInner c) (special : Bool) : endsAuthority special c = false := by
  have hslash := h.notSlash
  simp only [isSlash, Bool.or_eq_false_iff, decide_eq_false_iff_not] at hslash
  simp [endsAuthority, h.notMark, hslash]

theorem takeWhile_append_cons {keeps : Char → Bool} (hc : keeps c = false) (a b : List Char) :
    (a ++ c :: b).takeWhile keeps = a.takeWhile keeps := by
  induction a with
  | nil => rw [List.nil_append, List.takeWhile_cons, hc]; rfl
  | cons d a ih =>
    rw [List.cons_append, List.takeWhile_cons, List.takeWhile_cons, ih]

theorem cut_append {stops : Char → Bool} (hauth : ∀ c ∈ auth, stops c = false)
    (hc : stops c = true) (text : List Char) :
    cut stops (auth ++ c :: text) = (auth, c :: text) := by
  have hkept : ∀ d ∈ auth, (!stops d) = true := fun d hd => by rw [hauth d hd]; rfl
  rw [cut, List.takeWhile_append_of_pos hkept, List.dropWhile_append_of_pos hkept,
    List.takeWhile_cons, List.dropWhile_cons, hc]
  simp

theorem splitUserInfo_append (hauth : ∀ c ∈ auth, IsInner c) (text : List Char) :
    splitUserInfo special (auth ++ '/' :: text) = .ok ({}, auth ++ '/' :: text) := by
  have hcut : cut (fun c => c = '/' || endsPath c || (special && c = '\\')) (auth ++ '/' :: text) =
      (auth, '/' :: text) := cut_append (fun c hc => (hauth c hc).inside special) (by rfl) text
  have hback : auth.reverse.dropWhile (· ≠ '@') = [] := by
    rw [List.dropWhile_eq_nil_iff]
    intro c hc
    exact decide_eq_true (hauth c (List.mem_reverse.mp hc)).notAt
  rw [splitUserInfo, hcut]
  dsimp only
  rw [hback]

/-- The path behind an authority is no part of the host, and a colon is all that can end the host
before it. -/
theorem exists_splitHost (special : Bool) (hauth : ∀ c ∈ auth, IsInner c) (inBrackets : Bool) :
    ∃ host after, (after = [] ∨ ∃ port, after = ':' :: port ∧ ∀ c ∈ port, IsInner c) ∧
      ∀ text, splitHost special inBrackets (auth ++ '/' :: text) =
        (host, after ++ '/' :: text) := by
  induction auth generalizing inBrackets with
  | nil => exact ⟨[], [], .inl rfl, fun text => by rw [List.nil_append, splitHost]; rfl⟩
  | cons c auth ih =>
    obtain ⟨hc, hrest⟩ := List.forall_mem_cons.mp hauth
    have hinside : (c = '/' || endsPath c || (special && c = '\\')) = false := hc.inside special
    by_cases hcolon : (c = ':' && !inBrackets) = true
    · have heq := (Bool.and_eq_true_iff.mp hcolon).1
      obtain rfl := of_decide_eq_true heq
      refine ⟨[], ':' :: auth, .inr ⟨auth, rfl, hrest⟩, fun text => ?_⟩
      rw [List.cons_append, splitHost, hcolon, Bool.or_true, if_pos rfl]
    · obtain ⟨host, after, hafter, hsplit⟩ :=
        ih hrest (if c = '[' then true else if c = ']' then false else inBrackets)
      refine ⟨c :: host, after, hafter, fun text => ?_⟩
      rw [List.cons_append, splitHost, hinside, Bool.false_or, if_neg hcolon]
      dsimp only
      rw [hsplit]

/-- A port is read without what is behind the slash that ends it. -/
theorem exists_readPort (scheme : List Char) {port : List Char} (hport : ∀ c ∈ port, IsInner c) :
    ∃ read : Except UrlError (Option UInt16), ∀ text,
      readPort scheme (port ++ '/' :: text) = read.map fun found => (found, '/' :: text) := by
  have hdigit : (decide ('0' ≤ '/') && decide ('/' ≤ '9')) = false := by decide
  obtain ⟨digits, hdigits⟩ : ∃ digits, port.takeWhile (fun c => '0' ≤ c && c ≤ '9') = digits :=
    ⟨_, rfl⟩
  obtain ⟨rest, hrest⟩ : ∃ rest, port.dropWhile (fun c => '0' ≤ c && c ≤ '9') = rest := ⟨_, rfl⟩
  have hfree : ∀ c ∈ rest, IsInner c := by
    intro c hc
    rw [← hrest] at hc
    exact hport c ((List.dropWhile_sublist _).mem hc)
  obtain ⟨value, hvalue⟩ : ∃ value, (Numeral.continue? 10 0 digits).getD 0 = value := ⟨_, rfl⟩
  -- Whether the port is one can be told from its digits and from what follows them.
  refine ⟨if 65535 < value || !rest.isEmpty then .error .badPort
    else if digits.isEmpty || defaultPort? scheme = some value then .ok none
    else .ok (some (UInt16.ofNat value)), fun text => ?_⟩
  rw [readPort, takeWhile_append_cons hdigit, dropWhile_append_cons hdigit, hdigits, hrest,
    hvalue]
  cases rest with
  | nil =>
    have hslash : isSlash '/' = true := rfl
    by_cases hbig : 65535 < value
    · simp [hbig, Except.map]
    · by_cases husual : (digits.isEmpty || decide (defaultPort? scheme = some value)) = true
      · simp only [List.nil_append, hslash, hbig, husual, List.isEmpty_nil]
        rfl
      · simp only [List.nil_append, hslash, hbig, husual, List.isEmpty_nil]
        rfl
  | cons c rest =>
    have hc := hfree c List.mem_cons_self
    simp only [List.cons_append, hc.notSlash, hc.notMark, Bool.or_self, Bool.not_false,
      Bool.or_true, if_true, List.isEmpty_cons]
    rfl

/-! Every path behind the same authority is read alike. -/

/-- Where the paths behind a root are followed from. The first slash behind no host at all is one of
the path. -/
def start (root : Url) : List Segment :=
  if isFile root.scheme && root.host.isEmpty then [[]] else []

theorem isStart_start (root : Url) : IsStart (isFile root.scheme) root.start := by
  rw [start]
  constructor
  · split_ifs
    · exact List.forall_mem_singleton.mpr rfl
    · rintro segment ⟨⟩
  · intro hfile
    rw [hfile]
    rfl

/-- A reader that follows every path from its root. -/
structure Opens (read : List Char → Except UrlError Url) (root : Url) : Prop where
  atRoot : read [] = .ok root
  follows : ∀ text, ∃ url, read text = .ok url ∧ url.path =
    .rooted (followed (isFile root.scheme) (isSpecial root.scheme) root.start text)

/-- A reader that follows every path from the same root, or reads none. -/
inductive Alike (read : List Char → Except UrlError Url) : Prop where
  | opened (root : Url) (opens : Opens read root)
  | refused (e : UrlError) (refuses : ∀ text, read text = .error e)

theorem start_follow (url : Url) (above : List Segment) (text : List Char) :
    (follow url above text).start = url.start := by
  obtain ⟨hscheme, hauthority⟩ := frame_follow url above text
  rw [start, start, hscheme, host, hauthority]
  rfl

/-- What is followed from the start of a URL has a root. -/
theorem opens_of_follow {read : List Char → Except UrlError Url} (url : Url)
    (hroot : read [] = .ok (follow url url.start []))
    (hfollow : ∀ text, ∃ found, read text = .ok found ∧
      found.path = (follow url url.start text).path) : Opens read (follow url url.start []) := by
  refine ⟨hroot, fun text => ?_⟩
  obtain ⟨found, hread, hpath⟩ := hfollow text
  refine ⟨found, hread, ?_⟩
  rw [hpath, path_follow, start_follow, (frame_follow url url.start []).1]

theorem alike_of_follow {read : List Char → Except UrlError Url} (url : Url)
    (h : ∀ text, read text = .ok (follow url url.start text)) : Alike read :=
  .opened _ (opens_of_follow url (h []) fun text => ⟨_, h text, rfl⟩)

theorem followAuthority_slash (url : Url) (text : List Char) :
    followAuthority url ('/' :: text) = follow url [] text := by
  rw [followAuthority]
  simp [isSlash]

/-- The host of an authority, by the text of it. -/
def hostOf (special : Bool) (text : List Char) : Except UrlError (List Char) :=
  if special then if text.isEmpty then .error .emptyHost else Host.ofDomain text
  else Host.ofText text

section Authorities

variable {hostText after host : List Char}

theorem readAuthority_of_no_host {e : UrlError} (hauth : ∀ c ∈ auth, IsInner c)
    (hsplit : splitHost (isSpecial scheme) false (auth ++ '/' :: text) =
      (hostText, after ++ '/' :: text))
    (hhost : hostOf (isSpecial scheme) hostText = .error e) :
    readAuthority scheme (auth ++ '/' :: text) = .error e := by
  rw [readAuthority, splitUserInfo_append hauth]
  simp only [bind, Except.bind, hsplit]
  rw [hostOf] at hhost
  split_ifs at hhost ⊢ with hspecial <;> rw [hhost]

/-- Behind the host comes a port or the path. -/
theorem readAuthority_of_host (hauth : ∀ c ∈ auth, IsInner c)
    (hsplit : splitHost (isSpecial scheme) false (auth ++ '/' :: text) =
      (hostText, after ++ '/' :: text))
    (hhost : hostOf (isSpecial scheme) hostText = .ok host) :
    readAuthority scheme (auth ++ '/' :: text) =
      if host.isEmpty && (after ++ '/' :: text).head? = some ':' then .error .emptyHost
      else do
        let (port, rest) ← match after ++ '/' :: text with
          | ':' :: port => readPort scheme port
          | _ => .ok (none, after ++ '/' :: text)
        return followAuthority ⟨scheme, some { host, port }, .rooted [], none, none⟩ rest := by
  rw [readAuthority, splitUserInfo_append hauth]
  simp only [bind, Except.bind, hsplit]
  have hnobody (colon : Bool) : (colon || decide (([] : List Char) ≠ []) ||
      (none : Option (List Char)).isSome) = colon := by
    simp
  rw [hostOf] at hhost
  by_cases hspecial : isSpecial scheme = true
  case' pos => rw [if_pos hspecial] at hhost ⊢
  case' neg => rw [if_neg hspecial] at hhost ⊢
  all_goals
    rw [hhost]
    dsimp only
    rw [hnobody]
    split_ifs
    · rfl
    · rfl

/-- Every path behind the same authority is read alike. -/
theorem alike_readAuthority (hfile : isFile scheme = false) (hauth : ∀ c ∈ auth, IsInner c) :
    Alike fun text => readAuthority scheme (auth ++ '/' :: text) := by
  obtain ⟨hostText, after, hafter, hsplit⟩ :=
    exists_splitHost (isSpecial scheme) hauth false
  have hstart (host : List Char) (port : Option UInt16) :
      (⟨scheme, some { host, port }, .rooted [], none, none⟩ : Url).start = [] := by
    rw [start, hfile]
    rfl
  cases hhost : hostOf (isSpecial scheme) hostText with
  | error e => exact .refused e fun text => readAuthority_of_no_host hauth (hsplit text) hhost
  | ok host =>
    rcases hafter with rfl | ⟨port, rfl, hport⟩
    · refine alike_of_follow (⟨scheme, some { host }, .rooted [], none, none⟩) fun text => ?_
      rw [readAuthority_of_host hauth (hsplit text) hhost, hstart, ← followAuthority_slash]
      simp [bind, Except.bind]
      rfl
    · by_cases hempty : host.isEmpty = true
      · refine .refused .emptyHost fun text => ?_
        rw [readAuthority_of_host hauth (hsplit text) hhost, hempty]
        rfl
      · obtain ⟨read, hread⟩ := exists_readPort scheme hport
        have hfound (text : List Char) : readAuthority scheme (auth ++ '/' :: text) =
            read.map fun found => followAuthority
              ⟨scheme, some { host, port := found }, .rooted [], none, none⟩ ('/' :: text) := by
          rw [readAuthority_of_host hauth (hsplit text) hhost]
          simp only [List.cons_append, hempty, hread]
          cases read <;> rfl
        cases read with
        | error e => exact .refused e hfound
        | ok found =>
          refine alike_of_follow
            (⟨scheme, some { host, port := found }, .rooted [], none, none⟩) fun text => ?_
          rw [hfound, hstart, ← followAuthority_slash]
          rfl

end Authorities

/-- What is followed behind a host of files, which goes where there is a drive. -/
theorem exists_readFileHost (hdrive : Path.isDriveLetter auth = false)
    (hauth : ∀ c ∈ auth, IsInner c) :
    (∃ e, ∀ text, readFileHost (auth ++ '/' :: text) = .error e) ∨
    (∀ text, readFileHost (auth ++ '/' :: text) = .ok (follow (fileUrl []) [[]] text)) ∨
    ∃ host, host ≠ [] ∧ ∀ text, readFileHost (auth ++ '/' :: text) =
      .ok (if ((Path.follow true [] (Path.segmentsOf true (cut endsPath text).1)).head?.any
          Path.isNormalDrive) = true
        then { follow (fileUrl host) [] text with authority := some {} }
        else follow (fileUrl host) [] text) := by
  have hcut (text : List Char) : cut (fun c => isSlash c || endsPath c) (auth ++ '/' :: text) =
      (auth, '/' :: text) := by
    refine cut_append (fun c hc => ?_) rfl text
    rw [(hauth c hc).notSlash, (hauth c hc).notMark]
    rfl
  by_cases hempty : auth.isEmpty = true
  · right
    left
    intro text
    rw [readFileHost, hcut]
    simp only [hdrive, hempty, bind, Except.bind, Bool.false_eq_true, if_false, if_true]
    rw [← follow_slash]
    rfl
  · cases hhost : Host.ofDomain auth with
    | error e =>
      refine .inl ⟨e, fun text => ?_⟩
      rw [readFileHost, hcut]
      simp only [hdrive, hempty, hhost, bind, Except.bind, Bool.false_eq_true, if_false]
    | ok host =>
      by_cases hlocal : host = "localhost".toList
      · right
        left
        intro text
        rw [readFileHost, hcut, ← follow_slash]
        simp only [hdrive, hempty, hhost, hlocal, bind, Except.bind, Bool.false_eq_true, if_false]
        rfl
      · refine .inr (.inr ⟨host, Host.ne_nil_of_ofDomain hhost, fun text => ?_⟩)
        have hne : (host.isEmpty || decide (host = "localhost".toList)) = false := by
          rw [List.isEmpty_eq_false_iff.mpr (Host.ne_nil_of_ofDomain hhost),
            decide_eq_false hlocal]
          rfl
        rw [readFileHost, hcut]
        simp only [hdrive, hempty, hhost, hne, bind, Except.bind, Bool.false_eq_true, if_false,
          followAuthority_slash]
        rfl

/-- Every path behind the same host of files is read alike, unless the host is a drive letter. -/
theorem alike_readFileHost (hdrive : Path.isDriveLetter auth = false)
    (hauth : ∀ c ∈ auth, IsInner c) : Alike fun text => readFileHost (auth ++ '/' :: text) := by
  rcases exists_readFileHost hdrive hauth with ⟨e, hread⟩ | hread | ⟨host, hhost, hread⟩
  · exact .refused e hread
  · exact alike_of_follow (fileUrl []) hread
  · have hstart : (fileUrl host).start = [] := by
      rw [start]
      simp [fileUrl, Url.host, hhost]
    refine .opened _ (opens_of_follow (fileUrl host) ?_ fun text => ⟨_, hread text, ?_⟩)
    · rw [hread, hstart]
      rfl
    · rw [hstart]
      split_ifs <;> rfl

/-! What stands before a path. -/

/-- A scheme and an authority that are read as such, whatever path is behind them. -/
structure IsFront (scheme auth : List Char) : Prop where
  isRead : ReadScheme scheme
  undelimited : Undelimited auth
  notDrive : Path.isDriveLetter auth = false
  hosted : isWeb scheme = true → auth ≠ []

/-- The text of a path behind a scheme and an authority. -/
def pasted (scheme auth path : List Char) : List Char :=
  scheme ++ ':' :: '/' :: '/' :: (auth ++ path)

theorem dropWhile_isSlash (hauth : ∀ c ∈ auth, IsInner c) (hne : auth ≠ []) (text : List Char) :
    ('/' :: '/' :: (auth ++ '/' :: text)).takeWhile isSlash = ['/', '/'] ∧
      ('/' :: '/' :: (auth ++ '/' :: text)).dropWhile isSlash = auth ++ '/' :: text := by
  obtain ⟨c, rest, rfl⟩ := List.exists_cons_of_ne_nil hne
  have hc := (hauth c List.mem_cons_self).notSlash
  have hslash : isSlash '/' = true := rfl
  simp [hc, hslash]

/-- Behind two slashes nothing is relative to a base any more. -/
theorem readScheme_pasted (h : IsFront scheme auth) (base : Option Url) :
    readScheme base scheme ('/' :: '/' :: (auth ++ '/' :: text)) =
      if isFile scheme then readFileHost (auth ++ '/' :: text)
      else readAuthority scheme (auth ++ '/' :: text) := by
  have hslash : isSlash '/' = true := rfl
  rw [readScheme.eq_def]
  split_ifs with hfile hweb
  · rw [readFile.eq_def]
    simp only [hslash, if_true]
  · obtain ⟨htake, hdrop⟩ := dropWhile_isSlash h.undelimited.isInner (h.hosted hweb) text
    rw [htake, hdrop]
    cases base with
    | none => rfl
    | some b => exact if_neg (by simp)
  · rfl

/-- Every path behind a front is read alike, relative to any base. -/
theorem IsFront.alike (h : IsFront scheme auth) : ∃ read, Alike read ∧
    ∀ base text (given : String), given.toList = pasted scheme auth ('/' :: text) →
      parse base given = read (visible text) := by
  have hinner := h.undelimited.isInner
  refine ⟨fun text => if isFile scheme then readFileHost (auth ++ '/' :: text)
    else readAuthority scheme (auth ++ '/' :: text), ?_, fun base text given hgiven => ?_⟩
  · by_cases hfile : isFile scheme = true
    · simp only [hfile, if_true]
      exact alike_readFileHost h.notDrive hinner
    · rw [Bool.not_eq_true] at hfile
      simp only [hfile, Bool.false_eq_true, if_false]
      exact alike_readAuthority hfile hinner
  · have hkept : ('/' :: '/' :: auth).filter isKept = '/' :: '/' :: auth :=
      List.filter_eq_self.mpr (List.forall_mem_cons.mpr ⟨rfl, List.forall_mem_cons.mpr
        ⟨rfl, fun c hc => (hinner c hc).kept⟩⟩)
    have hends : given.toList = scheme ++ ':' :: ('/' :: '/' :: auth) ++ '/' :: text := by
      rw [hgiven, pasted]
      simp
    rw [h.isRead.parse_eq (by decide) base hends, hkept]
    exact readScheme_pasted h base

/-! What a front leads back to. -/

/-- A text that a URL holds as it is behind its root: it is followed as it is, and no blanks and no
line ends in it are dropped. -/
structure Held (root : Url) (text : List Char) : Prop extends
    Followable (isFile root.scheme) (isSpecial root.scheme) root.start text where
  oneLine : '\t' ∉ text ∧ '\n' ∉ text ∧ '\r' ∉ text
  visibleEnd : ∀ c ∈ text.getLast?, 32 < c.toNat

theorem held_iff {root : Url} : Held root text ↔ visible text = text ∧
    Followable (isFile root.scheme) (isSpecial root.scheme) root.start text := by
  rw [visible_eq_iff, ← oneLine_iff]
  exact ⟨fun h => ⟨⟨h.oneLine, h.visibleEnd⟩, h.toFollowable⟩, fun h => ⟨h.2, h.1.1, h.1.2⟩⟩

/-- A path that is read behind a front is the one that was pasted there exactly if the front has a
root that holds it. -/
theorem IsFront.decodePath_iff (h : IsFront scheme auth) (base : Option Url) {given root : String}
    (hgiven : given.toList = pasted scheme auth ('/' :: text))
    (hroot : root.toList = pasted scheme auth ['/']) :
    (∃ url, parse base given = .ok url ∧ Percent.decodePath url.path.text = .ok ('/' :: text)) ↔
      ∃ url, parse none root = .ok url ∧ url.Held text := by
  obtain ⟨read, halike, hread⟩ := h.alike
  rw [hread base text given hgiven, hread none [] root hroot]
  show _ ↔ ∃ url, read [] = .ok url ∧ _
  cases halike with
  | refused e hrefuses =>
    rw [hrefuses, hrefuses]
    simp
  | opened url hopens =>
    obtain ⟨found, hfound, hpath⟩ := hopens.follows (visible text)
    rw [hfound, hopens.atRoot]
    simp only [Except.ok.injEq, exists_eq_left', held_iff]
    rw [hpath]
    constructor
    · exact (isStart_start url).followable (visible_sublist text)
    · rintro ⟨hvisible, hfollowable⟩
      rw [hvisible]
      exact hfollowable.decodePath (isStart_start url)

theorem Path.follow_ne_nil {segments : List Segment} (isFile : Bool) (above : List Segment)
    (hne : segments ≠ []) : follow isFile above segments ≠ [] := by
  rw [follow_eq_foldl isFile above hne]
  split_ifs with hdots
  · exact List.append_ne_nil_of_right_ne_nil _ (List.cons_ne_nil _ _)
  · have hlast : isDots (segments.getLast hne) = false := by
      rw [isDots, Bool.eq_false_iff, ne_eq, Bool.or_eq_true]
      exact hdots
    rw [← List.dropLast_append_getLast hne, List.foldl_append, List.foldl_cons, List.foldl_nil,
      enter_of_name hlast]
    simp

/-- Behind a front no path is empty. -/
theorem IsFront.path_ne_nil (h : IsFront scheme auth) {base : Option Url} {given : String}
    {url : Url} (hgiven : given.toList = pasted scheme auth ('/' :: text))
    (hurl : parse base given = .ok url) : url.path.text ≠ [] := by
  obtain ⟨read, halike, hread⟩ := h.alike
  rw [hread base text given hgiven] at hurl
  cases halike with
  | refused e hrefuses =>
    rw [hrefuses] at hurl
    cases hurl
  | opened root hopens =>
    obtain ⟨found, hfound, hpath⟩ := hopens.follows (visible text)
    obtain rfl := Except.ok.inj (hfound.symm.trans hurl)
    have hfollow := Path.follow_ne_nil (isFile root.scheme) root.start (List.cons_ne_nil _ _ :
      Path.segmentsOf (isSpecial root.scheme) (cut endsPath (visible text)).1 ≠ [])
    have hne : followed (isFile root.scheme) (isSpecial root.scheme) root.start (visible text) ≠
        [] := by
      rw [followed]
      split_ifs
      · rcases Path.trimFront_cases (Path.follow _ root.start _) with ⟨hroot, -⟩ | ⟨hkept, hne⟩
        · rw [hroot]
          exact List.cons_ne_nil _ _
        · rwa [hkept]
      · exact hfollow
    obtain ⟨segment, segments, hsegments⟩ := List.exists_cons_of_ne_nil hne
    rw [hpath, hsegments]
    exact List.cons_ne_nil _ _

end MetaFs.Url
