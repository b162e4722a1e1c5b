import Mathlib
import MetaFs.Proofs.Hosts
import MetaFs.Url.Parse
/-! Whatever text is read as a URL, the path of the URL is settled, and no part before the query is
marked. Only behind a scheme of one's own is a path a plain text. -/

namespace MetaFs.Url

/-! Schemes. -/

def IsScheme (scheme : List Char) : Prop :=
  ∀ c ∈ scheme, splitScheme.isSchemeChar c = true

theorem isSchemeChar_lower {c : Char} (h : splitScheme.isSchemeChar c = true) :
    splitScheme.isSchemeChar (lower c) = true := by
  by_cases halpha : isAlpha c = true
  · rw [splitScheme.isSchemeChar, isAlpha_lower halpha]
    rfl
  · have hsame : lower c = c := by
      apply Percent.eq_of_toNat_eq
      rw [toNat_lower, if_neg]
      simp only [isAlpha, Bool.or_eq_true, Bool.and_eq_true, decide_eq_true_eq] at halpha
      omega
    rwa [hsame]

theorem isScheme_of_splitScheme {text scheme rest : List Char}
    (h : splitScheme text = some (scheme, rest)) : IsScheme scheme := by
  rw [splitScheme.eq_def] at h
  split at h
  · rename_i first _ name _ rest' hcut
    split_ifs at h with hname
    cases h
    simp only [Bool.and_eq_true, List.all_eq_true] at hname
    intro c hc
    obtain ⟨d, hd, rfl⟩ := List.mem_map.mp hc
    exact isSchemeChar_lower (hname.2 d hd)
  · cases h

theorem IsScheme.unmarked {scheme : List Char} (h : IsScheme scheme) : Unmarked scheme := by
  intro c hc
  by_contra hends
  simp only [endsPath, Bool.not_eq_false, Bool.or_eq_true, decide_eq_true_eq] at hends
  rcases hends with rfl | rfl <;> cases h _ hc

/-! What every URL has. -/

structure Authority.Proper (a : Authority) : Prop where
  user : Unmarked a.user
  password : ∀ p ∈ a.password, Unmarked p
  host : IsHost a.host

theorem proper_noAuthority : ({} : Authority).Proper :=
  ⟨unmarked_nil, by rintro p ⟨⟩, isHost_nil⟩

theorem Authority.Proper.text {a : Authority} (h : a.Proper) : Unmarked a.text := by
  rw [Authority.text]
  refine unmarked_append.mpr ⟨unmarked_append.mpr ⟨?_, h.host.unmarked⟩, ?_⟩
  · split_ifs
    · exact unmarked_nil
    · refine unmarked_append.mpr ⟨unmarked_append.mpr ⟨h.user, ?_⟩,
        unmarked_cons.mpr ⟨rfl, unmarked_nil⟩⟩
      cases hp : a.password with
      | none => exact unmarked_nil
      | some p => exact unmarked_cons.mpr ⟨rfl, h.password p hp⟩
  · cases a.port with
    | none => exact unmarked_nil
    | some p => exact unmarked_cons.mpr ⟨rfl, (allowed_toString p.toNat).unmarked⟩

structure Framed (url : Url) : Prop where
  scheme : IsScheme url.scheme
  authority : ∀ a ∈ url.authority, a.Proper

structure Rooted (url : Url) : Prop extends Framed url where
  settled : ∃ segments, url.path = .rooted segments ∧ ∀ segment ∈ segments, Path.Settled segment

structure Proper (url : Url) : Prop extends Framed url where
  path : url.path.Proper
  plain : url.path.isPlain = true → isSpecial url.scheme = false

theorem Rooted.isPlain {url : Url} (h : url.Rooted) : url.path.isPlain = false := by
  obtain ⟨segments, hpath, -⟩ := h.settled
  rw [hpath]
  rfl

theorem Rooted.proper {url : Url} (h : url.Rooted) : url.Proper := by
  obtain ⟨segments, hpath, hsettled⟩ := h.settled
  refine ⟨h.toFramed, ?_, ?_⟩
  · rw [hpath]
    exact hsettled
  · rw [h.isPlain]
    rintro ⟨⟩

theorem Proper.rooted {url : Url} (h : url.Proper) (hplain : url.path.isPlain = false) :
    url.Rooted := by
  refine ⟨h.toFramed, ?_⟩
  have hpath := h.path
  cases hp : url.path with
  | plain text =>
    rw [hp] at hplain
    cases hplain
  | rooted segments =>
    rw [hp] at hpath
    exact ⟨segments, rfl, hpath⟩

/-- A URL without a query and a fragment has the text of neither. -/
theorem Proper.text {url : Url} (h : url.Proper) (hquery : url.query = none)
    (hfragment : url.fragment = none) : Unmarked url.text := by
  rw [Url.text, hquery, hfragment]
  simp only [List.append_nil, unmarked_append]
  refine ⟨⟨⟨h.scheme.unmarked, unmarked_cons.mpr ⟨rfl, unmarked_nil⟩⟩, ?_⟩, h.path.unmarked⟩
  cases ha : url.authority with
  | none =>
    dsimp only
    split_ifs
    · exact unmarked_cons.mpr ⟨rfl, unmarked_cons.mpr ⟨rfl, unmarked_nil⟩⟩
    · exact unmarked_nil
  | some a => exact unmarked_cons.mpr ⟨rfl, unmarked_cons.mpr ⟨rfl, (h.authority a ha).text⟩⟩

/-! Each reader gives a URL with settled segments. -/

theorem exists_withTail (url : Url) (tail : List Char) : ∃ query fragment,
    withTail url tail = { url with query := query, fragment := fragment } := by
  rw [withTail.eq_def]
  split
  · exact ⟨_, _, rfl⟩
  · exact ⟨_, _, rfl⟩
  · exact ⟨_, _, rfl⟩

theorem path_withTail (url : Url) (tail : List Char) : (withTail url tail).path = url.path := by
  obtain ⟨query, fragment, htail⟩ := exists_withTail url tail
  rw [htail]

theorem Rooted.withTail {url : Url} (h : url.Rooted) (tail : List Char) :
    (withTail url tail).Rooted := by
  obtain ⟨query, fragment, htail⟩ := exists_withTail url tail
  rw [htail]
  exact ⟨⟨h.scheme, h.authority⟩, h.settled⟩

theorem Rooted.withFragment {url : Url} (h : url.Rooted) (text : List Char) :
    (withFragment url text).Rooted :=
  ⟨⟨h.scheme, h.authority⟩, h.settled⟩

theorem Framed.follow {url : Url} (h : url.Framed) {above : List Segment}
    (habove : ∀ segment ∈ above, Path.Settled segment) (text : List Char) :
    (follow url above text).Rooted := by
  have hfollow : ∀ segment ∈ Path.follow (isFile url.scheme) above
      (Path.segmentsOf (isSpecial url.scheme) (cut endsPath text).1), Path.Settled segment :=
    Path.settled_follow habove fun _ => Path.of_mem_segmentsOf
  have hframed (path : Path) : { url with path := path : Url }.Framed := ⟨h.scheme, h.authority⟩
  refine Rooted.withTail ⟨hframed _, _, rfl, ?_⟩ _
  split_ifs
  · exact Path.settled_trimFront hfollow
  · exact hfollow

theorem Framed.followRoot {url : Url} (h : url.Framed) (text : List Char) :
    (Url.follow url [] text).Rooted :=
  h.follow (by rintro segment ⟨⟩) text

theorem Framed.followAuthority {url : Url} (h : url.Framed) (text : List Char) :
    (followAuthority url text).Rooted := by
  have hempty : { url with path := .rooted [] : Url }.Rooted :=
    ⟨⟨h.scheme, h.authority⟩, [], rfl, by rintro segment ⟨⟩⟩
  cases text with
  | nil =>
    rw [Url.followAuthority]
    split_ifs
    · exact h.followRoot []
    · exact hempty.withTail []
  | cons c rest =>
    rw [Url.followAuthority]
    split_ifs
    -- A path that does not start here is empty, and any other one is followed.
    all_goals first
      | exact hempty.withTail _
      | exact h.followRoot _

theorem escapedInUserInfo_of_endsPath {c : Char} (h : endsPath c = true) :
    escapedInUserInfo c = true := by
  rw [escapedInUserInfo, escapedInPath_of_endsPath h]
  rfl

theorem unmarked_userInfo (text : List Char) :
    Unmarked (Percent.encode escapedInUserInfo text) :=
  unmarked_encode fun _ _ => escapedInUserInfo_of_endsPath

theorem proper_splitUserInfo {special : Bool} {text rest : List Char} {a : Authority}
    (h : splitUserInfo special text = .ok (a, rest)) : a.Proper := by
  rw [splitUserInfo] at h
  dsimp only at h
  split at h
  · cases h
    exact proper_noAuthority
  · split_ifs at h
    · cases h
      exact proper_noAuthority
    · cases h
      refine ⟨unmarked_userInfo _, ?_, isHost_nil⟩
      intro p hp
      dsimp only at hp
      split at hp
      · cases hp
      · cases hp
      · cases hp
        exact unmarked_userInfo _

theorem rooted_readAuthority {scheme text : List Char} {url : Url} (hscheme : IsScheme scheme)
    (h : readAuthority scheme text = .ok url) : url.Rooted := by
  rw [readAuthority] at h
  obtain ⟨⟨userInfo, behind⟩, huser, h⟩ := eq_ok_of_bind h
  dsimp only at h
  have hinfo := proper_splitUserInfo huser
  -- The port has no part in the path: whatever reads it, the rest is followed in the same way.
  have hport {host : List Char} {x : Except UrlError (Option UInt16 × List Char)}
      (hhost : IsHost host) (h : (x >>= fun found => .ok (followAuthority
        ⟨scheme, some ⟨userInfo.user, userInfo.password, host, found.1⟩, .rooted [], none, none⟩
          found.2)) = .ok url) : url.Rooted := by
    obtain ⟨⟨port, rest⟩, -, h⟩ := eq_ok_of_bind h
    cases h
    refine Framed.followAuthority ⟨hscheme, ?_⟩ rest
    rintro a ⟨⟩
    exact ⟨hinfo.user, hinfo.password, hhost⟩
  by_cases hspecial : isSpecial scheme = true
  case' pos =>
    rw [if_pos hspecial] at h
    obtain ⟨host, hhost, h⟩ := eq_ok_of_bind h
    replace hhost : IsHost host := by
      split_ifs at hhost
      exact Host.isHost_ofDomain hhost
  case' neg =>
    rw [if_neg hspecial] at h
    obtain ⟨host, hhost, h⟩ := eq_ok_of_bind h
    replace hhost : IsHost host := Host.isHost_ofText hhost
  all_goals
    split_ifs at h
    · cases h
    · split at h
      · exact hport hhost h
      · exact hport hhost h

theorem framed_fileUrl {host : List Char} (h : IsHost host) : (fileUrl host).Framed := by
  refine ⟨?_, ?_⟩
  · exact List.all_eq_true.mp rfl
  · rintro a ⟨⟩
    exact ⟨unmarked_nil, by rintro p ⟨⟩, h⟩

theorem rooted_readFileHost {text : List Char} {url : Url} (h : readFileHost text = .ok url) :
    url.Rooted := by
  have hfile : (fileUrl []).Framed := framed_fileUrl isHost_nil
  rw [readFileHost] at h
  dsimp only at h
  -- How the text is cut does not matter any more.
  generalize (cut (fun c => isSlash c || endsPath c) text).1 = hostText at h
  generalize (cut (fun c => isSlash c || endsPath c) text).2 = rest at h
  by_cases hdrive : Path.isDriveLetter hostText = true
  · rw [if_pos hdrive] at h
    cases h
    exact hfile.followRoot text
  rw [if_neg hdrive] at h
  by_cases hempty : hostText.isEmpty = true
  case' pos =>
    rw [if_pos hempty] at h
    obtain ⟨host, hhost, h⟩ := eq_ok_of_bind h
    replace hhost : IsHost host := by
      cases hhost
      exact isHost_nil
  case' neg =>
    rw [if_neg hempty] at h
    obtain ⟨host, hhost, h⟩ := eq_ok_of_bind h
    replace hhost : IsHost host := Host.isHost_ofDomain hhost
  all_goals
    have hurl := (framed_fileUrl hhost).followAuthority rest
    split_ifs at h
    · cases h
      exact hfile.followRoot rest
    · cases h
      exact ⟨⟨hurl.scheme, by rintro a ⟨⟩; exact proper_noAuthority⟩, hurl.settled⟩
    · cases h
      exact hurl

/-! Places to follow a path from. -/

theorem settled_above {url : Url} (h : url.Rooted) (isFile : Bool) :
    ∀ segment ∈ above isFile url.path, Path.Settled segment := by
  obtain ⟨segments, hpath, hsettled⟩ := h.settled
  intro segment hsegment
  rw [hpath, above.eq_def] at hsegment
  apply hsettled
  rw [← List.mem_reverse]
  dsimp only at hsegment
  split at hsegment
  · cases hsegment
  · rename_i hreverse
    rw [hreverse]
    split_ifs at hsegment
    · exact hsegment
    · exact List.mem_cons_of_mem _ hsegment

theorem settled_firstSegment {url : Url} (h : url.Rooted) :
    Path.Settled (firstSegment url.path) := by
  obtain ⟨segments, hpath, hsettled⟩ := h.settled
  rw [hpath]
  cases segments with
  | nil => exact Path.settled_nil
  | cons segment segments => exact hsettled segment List.mem_cons_self

theorem Framed.host {url : Url} (h : url.Framed) : IsHost url.host := by
  rw [Url.host]
  cases ha : url.authority with
  | none => exact isHost_nil
  | some a => exact (h.authority a ha).host

theorem rooted_fromRoot {base : Option Url} (hbase : ∀ b ∈ base, b.Rooted) (rest : List Char) :
    (readFile.fromRoot base rest).Rooted := by
  have hfile : (fileUrl []).Framed := framed_fileUrl isHost_nil
  rw [readFile.fromRoot.eq_def]
  cases base with
  | none => exact hfile.followRoot rest
  | some base =>
    have h := hbase base rfl
    dsimp only
    split_ifs
    · exact hfile.followRoot rest
    · exact hfile.follow (List.forall_mem_singleton.mpr (settled_firstSegment h)) rest
    · exact (framed_fileUrl h.host).followRoot rest

theorem rooted_readFile {base : Option Url} {text : List Char} {url : Url}
    (hbase : ∀ b ∈ base, b.Rooted) (h : readFile base text = .ok url) : url.Rooted := by
  have hfile : (fileUrl []).Framed := framed_fileUrl isHost_nil
  cases text with
  | nil =>
    rw [readFile.eq_def] at h
    cases base with
    | none =>
      cases h
      exact ⟨hfile, [[]], rfl, List.forall_mem_singleton.mpr Path.settled_nil⟩
    | some base =>
      cases h
      have h := hbase base rfl
      exact ⟨⟨h.scheme, h.authority⟩, h.settled⟩
  | cons c rest =>
    rw [readFile.eq_def] at h
    dsimp only at h
    split at h
    · split at h
      · split_ifs at h
        · exact rooted_readFileHost h
        · cases h
          exact rooted_fromRoot hbase _
      · cases h
        exact rooted_fromRoot hbase _
    · cases base with
      | none =>
        cases h
        exact hfile.followRoot _
      | some base =>
        have hrooted := hbase base rfl
        dsimp only at h
        split_ifs at h
        · cases h
          exact hrooted.withTail _
        · cases h
          exact hrooted.withFragment _
        · cases h
          exact hfile.followRoot _
        · cases h
          exact hrooted.follow (settled_above hrooted true) _

theorem rooted_readRelative {base url : Url} {text : List Char} (hbase : base.Rooted)
    (h : readRelative base text = .ok url) : url.Rooted := by
  cases text with
  | nil =>
    rw [readRelative.eq_def] at h
    cases h
    exact ⟨⟨hbase.scheme, hbase.authority⟩, hbase.settled⟩
  | cons c rest =>
    rw [readRelative.eq_def] at h
    dsimp only at h
    split_ifs at h with hquery hfragment hslash
    · cases h
      exact hbase.withTail _
    · cases h
      exact hbase.withFragment _
    · split at h
      · split_ifs at h
        · exact rooted_readAuthority hbase.scheme h
        · exact rooted_readAuthority hbase.scheme h
        · cases h
          exact hbase.followRoot _
      · cases h
        exact hbase.followRoot _
    · cases h
      exact hbase.follow (settled_above hbase false) _

/-! Texts before they are read. -/

section Texts

variable {text a b : List Char} {c d : Char}

theorem dropWhile_append_cons {drops : Char → Bool} (hc : drops c = false) :
    (a ++ c :: b).dropWhile drops = a.dropWhile drops ++ c :: b := by
  induction a with
  | nil =>
    rw [List.nil_append, List.dropWhile_cons, hc]
    rfl
  | cons e a ih =>
    rw [List.cons_append, List.dropWhile_cons, List.dropWhile_cons]
    split_ifs
    · exact ih
    · rfl

theorem not_blank (h : 32 < c.toNat) : decide (c.toNat ≤ 32) = false := by
  rw [decide_eq_false_iff_not]
  omega

theorem is_kept (h : 32 < c.toNat) : (c ≠ '\t' && c ≠ '\n' && c ≠ '\r') = true := by
  simp only [Bool.and_eq_true, decide_eq_true_eq]
  refine ⟨⟨?_, ?_⟩, ?_⟩ <;> rintro rfl <;> revert h <;> decide

/-- What is visible and stands side by side stays so, wherever it is in a text. -/
theorem exists_tidy_append (hc : 32 < c.toNat) (hd : 32 < d.toNat) : ∃ front back,
    tidy (a ++ c :: d :: b) = front ++ c :: d :: back ∧ ∀ e ∈ front, e ∈ a := by
  obtain ⟨front, hfront⟩ : ∃ front, a.dropWhile (·.toNat ≤ 32) = front := ⟨_, rfl⟩
  -- From the front blanks are dropped up to `c` at most, and from the back up to `d`.
  have hstart : (a ++ c :: d :: b).dropWhile (·.toNat ≤ 32) = front ++ c :: d :: b := by
    rw [dropWhile_append_cons (not_blank hc), hfront]
  have hend : ((front ++ c :: d :: b).reverse.dropWhile (·.toNat ≤ 32)).reverse =
      front ++ c :: d :: (b.reverse.dropWhile (·.toNat ≤ 32)).reverse := by
    have hreverse : (front ++ c :: d :: b).reverse = b.reverse ++ d :: c :: front.reverse := by
      simp
    rw [hreverse, dropWhile_append_cons (not_blank hd)]
    simp
  refine ⟨front.filter fun c => c ≠ '\t' && c ≠ '\n' && c ≠ '\r',
    (b.reverse.dropWhile (·.toNat ≤ 32)).reverse.filter fun c => c ≠ '\t' && c ≠ '\n' && c ≠ '\r',
    ?_, ?_⟩
  · rw [tidy, hstart, hend, List.filter_append, List.filter_cons, if_pos (is_kept hc),
      List.filter_cons, if_pos (is_kept hd)]
  · intro e he
    rw [← hfront] at he
    exact (List.dropWhile_sublist _).mem (List.mem_filter.mp he).1

theorem tidy_of_visible (h : ∀ c ∈ text, 32 < c.toNat) : tidy text = text := by
  have hdrop {text : List Char} (h : ∀ c ∈ text, 32 < c.toNat) :
      text.dropWhile (·.toNat ≤ 32) = text := by
    cases text with
    | nil => rfl
    | cons c text =>
      rw [List.dropWhile_cons, not_blank (h c List.mem_cons_self)]
      rfl
  rw [tidy, hdrop h, hdrop fun c hc => h c (List.mem_reverse.mp hc), List.reverse_reverse,
    List.filter_eq_self]
  exact fun c hc => is_kept (h c hc)

theorem splitScheme_of_no_colon (h : ':' ∉ text) : splitScheme text = none := by
  have hdrop : text.dropWhile (fun c => !decide (c = ':')) = [] := by
    rw [List.dropWhile_eq_nil_iff]
    intro c hc
    rw [Bool.not_eq_true', decide_eq_false_iff_not]
    rintro rfl
    exact h hc
  rw [splitScheme.eq_def]
  split
  · rename_i hcut
    rw [cut, hdrop] at hcut
    cases hcut
  · rfl

/-- The first colon ends the scheme. -/
theorem eq_of_splitScheme {scheme rest : List Char} (ha : ':' ∉ a)
    (h : splitScheme (a ++ ':' :: b) = some (scheme, rest)) : rest = b := by
  have hdrop : (a ++ ':' :: b).dropWhile (fun c => !decide (c = ':')) = ':' :: b := by
    rw [dropWhile_append_cons rfl, List.append_left_eq_self, List.dropWhile_eq_nil_iff]
    intro c hc
    rw [Bool.not_eq_true', decide_eq_false_iff_not]
    rintro rfl
    exact ha hc
  rw [splitScheme.eq_def] at h
  split at h
  · rename_i hcut
    rw [cut, hdrop] at hcut
    split_ifs at h
    cases h
    cases hcut
    rfl
  · cases h

end Texts

/-! A text with a scheme of its own may have a plain path behind it. -/

/-- The path behind the scheme is plain: the scheme is not special, and no slash follows it. -/
structure StartsPlain (text scheme rest : List Char) : Prop where
  split : splitScheme text = some (scheme, rest)
  notSpecial : isSpecial scheme = false
  noSlash : rest.head? ≠ some '/'

/-- How a text is read, by the path that it gets. -/
inductive Reads (base : Option Url) (text : List Char) (url : Url) : Prop where
  | plain {scheme rest : List Char} (starts : StartsPlain text scheme rest)
      (path : url.path = .plain (Percent.encode isControl (cut endsPath rest).1))
  | kept {b : Url} (scheme : splitScheme text = none) (hbase : base = some b)
      (plain : b.path.isPlain = true) (path : url.path = b.path)
  | rooted (rooted : url.Rooted) (starts : ∀ scheme rest, ¬StartsPlain text scheme rest)
      (base : splitScheme text ≠ none ∨ ∃ b, base = some b ∧ b.path.isPlain = false)

theorem proper_plain {rest : List Char} (h : rest.head? ≠ some '/') :
    (Path.plain (Percent.encode isControl (cut endsPath rest).1)).Proper := by
  constructor
  · intro c hc
    rcases mem_encode hc with ⟨hmem, -⟩ | ⟨b, hb⟩
    · have hkept := List.mem_takeWhile_imp hmem
      rwa [Bool.not_eq_true'] at hkept
    · exact endsPath_of_mem_escape hb
  · cases rest with
    | nil => rintro ⟨⟩
    | cons c rest =>
      rw [cut, List.takeWhile_cons]
      split_ifs
      · obtain ⟨d, tail, hencode, hd⟩ := exists_encode_cons isControl c
          (rest.takeWhile fun c => !endsPath c)
        rw [hencode]
        rintro ⟨⟩
        rcases hd with rfl | hd
        · exact h rfl
        · cases hd
      · rintro ⟨⟩

theorem rooted_of_isSpecial {url : Url} (h : url.Proper) (hspecial : isSpecial url.scheme = true) :
    url.Rooted := by
  refine h.rooted ?_
  by_contra hplain
  rw [h.plain (Bool.eq_true_of_not_eq_false hplain)] at hspecial
  cases hspecial

theorem rooted_readScheme {base : Option Url} {scheme text : List Char} {url : Url}
    (hbase : ∀ b ∈ base, b.Proper) (hscheme : IsScheme scheme)
    (hstarts : isSpecial scheme = true ∨ text.head? = some '/')
    (h : readScheme base scheme text = .ok url) : url.Rooted := by
  rw [readScheme.eq_def] at h
  split_ifs at h with hfile hweb
  -- A base counts only if it has the same special scheme, and then it is rooted.
  · refine rooted_readFile (fun b hb => ?_) h
    obtain ⟨hb, hfile⟩ := Option.filter_eq_some_iff.mp hb
    exact rooted_of_isSpecial (hbase b hb) (by rw [isSpecial, hfile, Bool.or_true])
  · cases base with
    | none => exact rooted_readAuthority hscheme h
    | some b =>
      dsimp only at h
      split_ifs at h with hsame
      · simp only [Bool.and_eq_true, decide_eq_true_eq] at hsame
        refine rooted_readRelative (rooted_of_isSpecial (hbase b rfl) ?_) h
        rw [isSpecial, hsame.2, hweb, Bool.true_or]
      · exact rooted_readAuthority hscheme h
  · have hspecial : isSpecial scheme = false := by
      rw [isSpecial, Bool.eq_false_of_not_eq_true hfile, Bool.eq_false_of_not_eq_true hweb]
      rfl
    have hslash := hstarts.resolve_left (by rw [hspecial]; decide)
    obtain ⟨rest, rfl⟩ := List.head?_eq_some_iff.mp hslash
    split at h
    · exact rooted_readAuthority hscheme h
    · cases h
      exact Framed.followRoot ⟨hscheme, by rintro a ⟨⟩⟩ _
    · rename_i hnot
      exact absurd rfl (hnot rest)

theorem readScheme_plain {base : Option Url} {text scheme rest : List Char} {url : Url}
    (hstarts : StartsPlain text scheme rest) (h : readScheme base scheme rest = .ok url) :
    url.Proper ∧ url.path = .plain (Percent.encode isControl (cut endsPath rest).1) := by
  have hnot : isWeb scheme = false ∧ isFile scheme = false := by
    have hspecial := hstarts.notSpecial
    rwa [isSpecial, Bool.or_eq_false_iff] at hspecial
  rw [readScheme.eq_def, hnot.1, hnot.2] at h
  simp only [Bool.false_eq_true, if_false] at h
  split at h
  · exact absurd rfl hstarts.noSlash
  · exact absurd rfl hstarts.noSlash
  · cases h
    obtain ⟨query, fragment, htail⟩ := exists_withTail
      ⟨scheme, none, .plain (Percent.encode isControl (cut endsPath rest).1), none, none⟩
      (cut endsPath rest).2
    rw [htail]
    exact ⟨⟨⟨isScheme_of_splitScheme hstarts.split, by rintro a ⟨⟩⟩, proper_plain hstarts.noSlash,
      fun _ => hstarts.notSpecial⟩, rfl⟩

theorem reads_of_scheme {base : Option Url} {text scheme rest : List Char} {url : Url}
    (hbase : ∀ b ∈ base, b.Proper) (hsplit : splitScheme text = some (scheme, rest))
    (h : readScheme base scheme rest = .ok url) : url.Proper ∧ Reads base text url := by
  by_cases hstarts : isSpecial scheme = true ∨ rest.head? = some '/'
  · have hrooted := rooted_readScheme hbase (isScheme_of_splitScheme hsplit) hstarts h
    refine ⟨hrooted.proper, .rooted hrooted ?_ (.inl (by rw [hsplit]; simp))⟩
    intro scheme' rest' hplain
    have heq := hplain.split
    rw [hsplit] at heq
    cases heq
    rcases hstarts with hspecial | hslash
    · rw [hplain.notSpecial] at hspecial
      cases hspecial
    · exact hplain.noSlash hslash
  · rw [not_or, Bool.not_eq_true] at hstarts
    have hplain : StartsPlain text scheme rest := ⟨hsplit, hstarts.1, hstarts.2⟩
    obtain ⟨hproper, hpath⟩ := readScheme_plain hplain h
    exact ⟨hproper, .plain hplain hpath⟩

theorem reads_of_rooted {base url : Url} {text : List Char} (hsplit : splitScheme text = none)
    (hplain : base.path.isPlain = false) (h : url.Rooted) :
    url.Proper ∧ Reads (some base) text url := by
  refine ⟨h.proper, .rooted h (fun scheme rest hstarts => ?_) (.inr ⟨base, rfl, hplain⟩)⟩
  rw [hstarts.split] at hsplit
  cases hsplit

/-- Whatever is read is a proper URL, and its path is plain only in two ways. -/
theorem proper_of_parse {base : Option Url} {text : String} {url : Url}
    (hbase : ∀ b ∈ base, b.Proper) (h : parse base text = .ok url) :
    url.Proper ∧ Reads base (tidy text.toList) url := by
  rw [parse.eq_def] at h
  dsimp only at h
  split at h
  -- With a scheme of its own the text decides; without one the base does.
  · rename_i scheme rest hsplit
    exact reads_of_scheme hbase hsplit h
  · rename_i hsplit
    cases base with
    | none => cases h
    | some b =>
      have hb := hbase b rfl
      dsimp only at h
      split at h
      · cases h
        by_cases hplain : b.path.isPlain = true
        · exact ⟨⟨⟨hb.scheme, hb.authority⟩, hb.path, hb.plain⟩, .kept hsplit rfl hplain rfl⟩
        · rw [Bool.not_eq_true] at hplain
          exact reads_of_rooted hsplit hplain ((hb.rooted hplain).withFragment _)
      · split_ifs at h with hplain hfile
        · rw [Bool.not_eq_true] at hplain
          refine reads_of_rooted hsplit hplain (rooted_readFile ?_ h)
          rintro b' ⟨⟩
          exact hb.rooted hplain
        · rw [Bool.not_eq_true] at hplain
          exact reads_of_rooted hsplit hplain (rooted_readRelative (hb.rooted hplain) h)

end MetaFs.Url
