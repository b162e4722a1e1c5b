import Mathlib
import MetaFs.Proofs.ChangingDirectories
import MetaFs.Proofs.Commands
import MetaFs.Proofs.DisplayUrls
import MetaFs.Proofs.Homes
/-! The names under which a session reports objects. A name is the path of its object behind the URI
of the authority, and read as a path it leads back to the object exactly if a URI holds the path as
it is. -/

namespace MetaFs

theorem Utf8.decodeLossy_encode (text : List Char) : decodeLossy (encode text) = text := by
  induction text with
  | nil => rw [encode, List.flatMap_nil, decodeLossy]
  | cons c text ih =>
    obtain ⟨b, bs, hc⟩ := List.exists_cons_of_ne_nil (String.utf8EncodeChar_ne_nil (c := c))
    rw [encode_cons, hc, List.cons_append, decodeLossy, front_utf8EncodeChar (encode text) hc]
    simp only [Nat.add_sub_cancel, List.drop_left, ih]

theorem Data.lossyText_ofString (text : String) : (Data.ofString text).lossyText = text := by
  rw [lossyText, ofString, Utf8.decodeLossy_encode, String.ofList_toList]

namespace Url

/-! The front that a URI has. -/

theorem host_ne_nil_of_readAuthority {scheme text : List Char} {url : Url}
    (hspecial : isSpecial scheme = true) (h : readAuthority scheme text = .ok url) :
    url.host ≠ [] := by
  rw [readAuthority] at h
  obtain ⟨⟨userInfo, behind⟩, -, h⟩ := eq_ok_of_bind h
  dsimp only at h
  rw [if_pos hspecial] at h
  obtain ⟨host, hhost, h⟩ := eq_ok_of_bind h
  replace hhost : host ≠ [] := by
    split_ifs at hhost
    exact Host.ne_nil_of_ofDomain hhost
  have hport {x : Except UrlError (Option UInt16 × List Char)}
      (h : (x >>= fun found => .ok (followAuthority
        ⟨scheme, some ⟨userInfo.user, userInfo.password, host, found.1⟩, .rooted [], none, none⟩
          found.2)) = .ok url) : url.host ≠ [] := by
    obtain ⟨⟨port, rest⟩, -, h⟩ := eq_ok_of_bind h
    cases h
    rw [Url.host, (frame_followAuthority _ rest).2]
    exact hhost
  split_ifs at h
  · cases h
  · split at h
    · exact hport h
    · exact hport h

/-- Behind a scheme of the web there is always a host. -/
theorem host_ne_nil {text : String} {url : Url} (h : parse none text = .ok url)
    (hweb : isWeb url.scheme = true) : url.host ≠ [] := by
  have hspecial : isSpecial url.scheme = true := by rw [isSpecial, hweb, Bool.true_or]
  obtain ⟨⟨rest, hsplit⟩, -⟩ := takesPort_parse h
  rw [parse.eq_def] at h
  dsimp only at h
  rw [hsplit] at h
  dsimp only at h
  rw [readScheme.eq_def] at h
  split_ifs at h with hfile
  · have hnot : isWeb url.scheme = false := by
      rw [of_decide_eq_true hfile]
      decide
    rw [hnot] at hweb
    cases hweb
  · exact host_ne_nil_of_readAuthority hspecial h

variable {host : List Char}

/-- A port behind a host, if there is one to be told. -/
def portText : Option UInt16 → List Char
  | none => []
  | some port => ':' :: (toString port).toList

theorem undelimited_portText (port : Option UInt16) : Undelimited (portText port) := by
  cases port with
  | none => rintro c ⟨⟩
  | some port =>
    intro c hc
    rcases List.mem_cons.mp hc with rfl | hc
    · exact .inl rfl
    · exact .inr (.inr (.inr (allowed_toString port.toNat c hc)))

theorem isDriveLetter_cases {text : List Char} (h : Path.isDriveLetter text = true) :
    ∃ c d, text = [c, d] ∧ isAlpha c = true ∧ (d = ':' ∨ d = '|') := by
  rw [Path.isDriveLetter.eq_def] at h
  split at h
  · rename_i c d
    simp only [Bool.and_eq_true, Bool.or_eq_true, decide_eq_true_eq] at h
    exact ⟨c, d, rfl, h.1, h.2⟩
  · cases h

/-- No host is a drive letter, with a port behind it or without. -/
theorem notDrive_of_isHost (h : IsHost host) (port : Option UInt16) :
    Path.isDriveLetter (host ++ portText port) = false := by
  by_contra hdrive
  rw [Bool.not_eq_false] at hdrive
  obtain ⟨c, d, htext, hc, hd⟩ := isDriveLetter_cases hdrive
  cases port with
  | none =>
    rw [portText, List.append_nil] at htext
    subst htext
    rcases h with hallowed | ⟨inner, hbrackets, -⟩
    · have hforbidden := hallowed d (by simp)
      rcases hd with rfl | rfl <;> cases hforbidden
    · obtain ⟨rfl, -⟩ := List.cons.inj hbrackets
      cases hc
  | some port =>
    -- A port takes two characters at least, and the first one is no letter.
    have hdigits : (toString port).toList ≠ [] := by
      show (toString port.toNat).toList ≠ []
      rw [Nat.toString_eq_ofList_toDigits, String.toList_ofList]
      exact Nat.toDigits_ne_nil
    cases host with
    | nil =>
      obtain ⟨rfl, -⟩ := List.cons.inj htext
      cases hc
    | cons a host =>
      have htail : host ++ portText (some port) = [d] := (List.cons.inj htext).2
      have hlength := congrArg List.length htail
      have hpos := List.length_pos_iff.mpr hdigits
      simp only [portText, List.length_append, List.length_cons, List.length_nil] at hlength
      omega

theorem isFront_of_parse {text : String} {uri : Uri} {directory : Bool}
    (h : Uri.parse text none directory = .ok uri) (port : Option UInt16) :
    IsFront uri.url.scheme (uri.url.host ++ portText port) := by
  obtain ⟨url, hurl, huri, -⟩ := Uri.parse_eq_ok h
  obtain ⟨hscheme, hhost⟩ : uri.url.scheme = url.scheme ∧ uri.url.host = url.host := by
    rw [huri]
    split_ifs <;> exact ⟨rfl, rfl⟩
  have hproper := (proper_of_parse (by rintro b ⟨⟩) hurl).1.toFramed.host
  rw [hscheme, hhost]
  refine ⟨hscheme ▸ Settings.readScheme_of_parse h, ?_, notDrive_of_isHost hproper port, ?_⟩
  · exact List.forall_mem_append.mpr ⟨fun c => hproper.undelimited, undelimited_portText port⟩
  · intro hweb hnil
    exact host_ne_nil hurl hweb (List.append_eq_nil_iff.mp hnil).1

end Url

namespace WorkingDirectory

variable {wd : WorkingDirectory} {scheme auth text : List Char} {given path root : String}

/-- A path behind a front stands for itself exactly if the front has a root that holds it. -/
theorem resolve_pasted_iff (h : Url.IsFront scheme auth) (hpath : path.toList = '/' :: text)
    (hgiven : given.toList = Url.pasted scheme auth path.toList)
    (hroot : root.toList = Url.pasted scheme auth ['/']) :
    wd.resolve given = .ok path ↔ ∃ url, Url.parse none root = .ok url ∧ url.Held text := by
  rw [hpath] at hgiven
  rw [← h.decodePath_iff (some wd.uri.url) hgiven hroot, ← hpath]
  constructor
  · intro hresolve
    obtain ⟨uri, huri, hsame⟩ := resolve_eq_ok hresolve
    obtain ⟨url, hurl, hsameUrl, hdecode⟩ := Uri.parse_eq_ok huri
    rw [if_neg Bool.false_ne_true] at hsameUrl
    rw [hsameUrl] at hdecode
    have hne : ¬uri.path.isEmpty = true := by
      rw [String.isEmpty_iff]
      intro hempty
      rw [hempty] at hdecode
      exact h.path_ne_nil hgiven hurl (Percent.eq_nil_of_decodePath hdecode)
    rw [if_neg hne] at hsame
    exact ⟨url, hurl, hsame ▸ hdecode⟩
  · rintro ⟨url, hurl, hdecode⟩
    have hparse : Uri.parse given (some wd.uri) false = .ok ⟨url, path⟩ := by
      have hbase : Url.parse ((some wd.uri).map Uri.url) given = .ok url := hurl
      rw [Uri.parse_of_ok hbase, if_neg Bool.false_ne_true, hdecode]
      show (Except.ok ⟨url, String.ofList path.toList⟩ : Except Error Uri) = _
      rw [String.ofList_toList]
    have hne : ¬path.isEmpty = true := by
      rw [String.isEmpty_iff]
      rintro rfl
      cases hpath
    rw [resolve, hparse]
    show Except.ok (if path.isEmpty then wd.uri.path else path) = _
    rw [if_neg hne]

end WorkingDirectory

namespace Settings

theorem toList_prefixOf (uri : Uri) (port : UInt16) : ∃ shown, (prefixOf uri port).toList =
    uri.url.scheme ++ ':' :: '/' :: '/' :: (uri.url.host ++ Url.portText shown) := by
  rw [prefixOf]
  split_ifs
  · exact ⟨none, by simp [toString, Uri.scheme, Uri.host, Url.portText]⟩
  · exact ⟨some port, by simp [toString, Uri.scheme, Uri.host, Url.portText]⟩

end Settings

namespace Session

variable {σ : Type} {settings : Settings} {processUser : String} {opening : Link σ} {state : σ}
  {s : Session}

/-- What the names of a session begin with is a front. -/
theorem exists_front (h : ((settings.connect processUser opening).run.run state).1 = .ok s) :
    ∃ scheme auth, Url.IsFront scheme auth ∧
      s.profile.urlPrefix.toList = Url.pasted scheme auth [] := by
  obtain ⟨outcome, next, contacts, hrun, -, hopens, -⟩ :=
    Settings.exists_run_opens settings processUser opening state
  rw [hrun] at h
  cases h
  cases hopens with
  | answered ready profiles =>
    obtain ⟨text, -, huri⟩ := ready.named
    obtain ⟨shown, hprefix⟩ := Settings.toList_prefixOf _ _
    refine ⟨_, _, Url.isFront_of_parse huri shown, ?_⟩
    rw [profiles.urlPrefix, hprefix, Url.pasted, List.append_nil]

theorem profile_moves (s : Session) (texts : List String) :
    (s.moves texts).profile = s.profile := by
  induction texts using List.reverseRecOn with
  | nil => rfl
  | append_singleton texts text ih =>
    rw [moves_concat, ← ih, move, setWorkingDirectory]
    cases (s.moves texts).workingDirectory.set text <;> rfl

/-- The names of a session hold a path: what they begin with has a root, and that holds what is
behind the first slash. -/
def Holds (s : Session) (path : String) : Prop :=
  ∃ root text, Url.parse none (s.profile.urlPrefix ++ "/") = .ok root ∧
    path.toList = '/' :: text ∧ root.Held text

/-- What a session reports under a path is named by the path with the name of the record behind it,
as it is. The name leads back to that path, wherever the session is by then, exactly if the names
of the session hold it. -/
def LeadsBack (s : Session) (path : String) (status : FileStatus) (info : FileInfo) : Prop :=
  ∀ name : String, status.path = .ofString name →
    info.name = s.profile.urlPrefix ++ (path ++ name) ∧
    (path.toList.head? = some '/' → ∀ later : List String,
      (s.moves later).workingDirectory.resolve info.name = .ok (path ++ name) ↔
        s.Holds (path ++ name))

theorem leadsBack_ofStatus (h : ((settings.connect processUser opening).run.run state).1 = .ok s)
    (moved : List String) (path : String) (status : FileStatus) :
    (s.moves moved).LeadsBack path status (.ofStatus status (s.profile.urlPrefix ++ path)) := by
  intro name hname
  have hinfo : (FileInfo.ofStatus status (s.profile.urlPrefix ++ path)).name =
      s.profile.urlPrefix ++ (path ++ name) := by
    rw [FileInfo.ofStatus, hname, Data.lossyText_ofString, String.append_assoc]
  refine ⟨by rw [hinfo, profile_moves], fun hrooted later => ?_⟩
  obtain ⟨scheme, auth, hfront, hprefix⟩ := exists_front h
  obtain ⟨rest, hpath⟩ := List.head?_eq_some_iff.mp hrooted
  have htarget : (path ++ name).toList = '/' :: (rest ++ name.toList) := by
    rw [String.toList_append, hpath]
    rfl
  have hpasted (tail : String) : (s.profile.urlPrefix ++ tail).toList =
      Url.pasted scheme auth tail.toList := by
    rw [String.toList_append, hprefix, Url.pasted, Url.pasted]
    simp
  rw [hinfo, WorkingDirectory.resolve_pasted_iff hfront htarget (hpasted _) (hpasted "/"), Holds,
    profile_moves, htarget]
  simp only [List.cons.injEq, true_and]
  constructor
  · rintro ⟨root, hroot, hheld⟩
    exact ⟨root, _, hroot, rfl, hheld⟩
  · rintro ⟨root, text, hroot, rfl, hheld⟩
    exact ⟨root, hroot, hheld⟩

/-- The path of a directory, up to the names of its entries. -/
def within (path : String) : String :=
  path ++ if path.toList.getLast? = some '/' then "" else "/"

theorem entryFront_eq (s : Session) (path : String) :
    s.entryFront path = s.profile.urlPrefix ++ within path := by
  rw [entryFront, within, String.append_assoc]

theorem exists_of_run_stat {link : Link σ} {start : σ} {given : String} {info : FileInfo}
    (h : ((s.stat link given).run.run start).1 = .ok info) :
    ∃ src status, s.workingDirectory.resolve given = .ok src ∧
      ((link.call (.getFileInfo src)).run.run start).1 =
        .ok (.reply (.getFileInfo (some status))) ∧
      info = .ofStatus status (s.profile.urlPrefix ++ src) := by
  rcases handles_stat s link given with ⟨-, hrefused⟩ | ⟨-, paths, hpaths, hsends⟩
  · obtain ⟨e, -, hrun, -⟩ := hrefused start []
    rw [hrun] at h
    cases h
  · obtain ⟨request, context, hasks, hsent⟩ := hsends
    obtain ⟨reply, outcome, next, hcall, hrun, -, hout⟩ := hsent start []
    obtain rfl : outcome = .ok info := (congrArg Prod.fst hrun).symm.trans h
    cases hasks
    obtain ⟨hresolve, -⟩ := List.forall₂_cons.mp hpaths
    cases hout with
    | granted grants =>
      cases grants
      exact ⟨_, _, hresolve, congrArg Prod.fst hcall, rfl⟩

/-- Whatever directory a session has come to, each of the objects that it reports is named by the
path that it asked for, or by the path of the directory that it listed and the object's own name.
The name leads back to the object exactly if the session's names hold that path. -/
theorem leadsBack_reported (h : ((settings.connect processUser opening).run.run state).1 = .ok s)
    (moved : List String) {τ : Type} (link : Link τ) (start : τ) (given : String) :
    (∀ info, (((s.moves moved).stat link given).run.run start).1 = .ok info →
      ∃ (src : String) (status : FileStatus),
        (s.moves moved).workingDirectory.resolve given = .ok src ∧
        ((link.call (.getFileInfo src)).run.run start).1 =
          .ok (.reply (.getFileInfo (some status))) ∧
        (s.moves moved).LeadsBack src status info) ∧
    ∀ bound infos, (((s.moves moved).listDirectory link bound given).run.run start).1 =
        .ok (some infos) →
      ∃ (path : String) (pages : List Page) (next : τ) (trips : List Trip),
        (s.moves moved).workingDirectory.resolve given = .ok path ∧
        ((s.moves moved).listDirectory link.noting bound given).run.run (start, []) =
          (.ok (some infos), next, trips) ∧
        trips.map Trip.reply = pages.map Page.reply ∧
        List.Forall₂ ((s.moves moved).LeadsBack (within path)) (pages.flatMap Page.entries)
          infos := by
  constructor
  · intro info hrun
    obtain ⟨src, status, hresolve, hreply, rfl⟩ := exists_of_run_stat hrun
    refine ⟨src, status, hresolve, hreply, ?_⟩
    rw [profile_moves]
    exact leadsBack_ofStatus h moved src status
  · intro bound infos hrun
    obtain ⟨path, middle, hpath, -⟩ := Over.run_bind_eq_ok (Prod.ext hrun rfl)
    have hresolve := resolve_of_run_path hpath
    obtain ⟨outcome, next, trips, houtcome, hnoted, -, hlists⟩ :=
      lists_listFrom link path ((s.moves moved).entryFront path) bound {} [] start []
    rw [run_listDirectory _ link bound hresolve, houtcome] at hrun
    obtain rfl : outcome = .ok (some infos) := hrun
    rw [← run_listDirectory _ link.noting bound hresolve] at hnoted
    obtain ⟨pages, last, -, -, hreplies, rfl⟩ := (hlists.listed.complete infos).mp rfl
    refine ⟨path, pages ++ [last], next, trips, hresolve, hnoted, hreplies, ?_⟩
    have hinfos : (pages ++ [last]).flatMap (Page.infos ((s.moves moved).entryFront path)) =
        ((pages ++ [last]).flatMap Page.entries).map
          (FileInfo.ofStatus · (s.profile.urlPrefix ++ within path)) := by
      rw [entryFront_eq, profile_moves, List.map_flatMap]
      rfl
    rw [hinfos, List.forall₂_map_right_iff, List.forall₂_same]
    exact fun status _ => leadsBack_ofStatus h moved (within path) status

def samplePage (name : String) : Page :=
  ⟨[{ sampleStatus [] with path := .ofString name }], 0⟩

theorem holds_spaces : openedSession.Holds "/user/alice/logs/a b%c" := by
  have hscheme : Url.isSpecial "hdfs".toList = false ∧ Url.isFile "hdfs".toList = false := by
    decide +kernel
  refine ⟨⟨"hdfs".toList, some { host := "nn".toList }, .rooted [[]], none, none⟩,
    "user/alice/logs/a b%c".toList, by decide +kernel, by decide +kernel, ⟨?_, ?_, ?_⟩⟩
  · rw [hscheme.1, hscheme.2]
    refine ⟨by decide +kernel, ?_, by decide +kernel, by decide +kernel, ?_, ?_⟩
    · rintro ⟨⟩
    · rintro ⟨⟩
    · rintro ⟨⟩
  · decide +kernel
  · have hlast : "user/alice/logs/a b%c".toList.getLast? = some 'c' := by decide +kernel
    rw [hlast]
    rintro c ⟨⟩
    decide

/-- A page of one entry is the whole directory. -/
theorem run_listDirectory_sample {s : Session} {given path : String} (bound : ℕ) (name : String)
    (resolves : s.workingDirectory.resolve given = .ok path) :
    (s.listDirectory scripted (bound + 1) given).run.run [(samplePage name).reply] =
      (.ok (some ((samplePage name).infos (s.entryFront path))), []) := by
  rw [run_listDirectory s scripted (bound + 1) resolves]
  have hcall : (scripted.call (.getListing path {} false)).run.run [(samplePage name).reply] =
      ((samplePage name).reply, []) := rfl
  exact run_listFrom_of_ends bound rfl hcall

/-- Blanks and percent signs within a name are no obstacle, and neither is another directory. -/
theorem leadsBack_reported_spaces :
    ((Settings.connect { nameNode := some "nn" } "alice" scripted).run.run openingReplies).1 =
      .ok openedSession ∧
    ∃ info, (((openedSession.moves ["logs"]).listDirectory scripted 5 "").run.run
        [(samplePage "a b%c").reply]).1 = .ok (some [info]) ∧
      ((openedSession.moves ["logs"]).moves ["/tmp"]).workingDirectory.resolve info.name =
        .ok "/user/alice/logs/a b%c" := by
  have resolves : (openedSession.moves ["logs"]).workingDirectory.resolve "" =
      .ok "/user/alice/logs/" := by cbv
  have hrun := congrArg Prod.fst (run_listDirectory_sample 4 "a b%c" resolves)
  refine ⟨connect_opening, _, hrun, ?_⟩
  obtain ⟨-, hlist⟩ := leadsBack_reported connect_opening ["logs"] scripted
    [(samplePage "a b%c").reply] ""
  obtain ⟨path, pages, next, trips, hresolve, hnoted, hreplies, hleads⟩ := hlist 5 _ hrun
  obtain rfl : path = "/user/alice/logs/" := Except.ok.inj (hresolve.symm.trans resolves)
  rw [run_listDirectory _ scripted.noting 5 resolves] at hnoted
  obtain ⟨-, hrest⟩ := Prod.mk.inj hnoted
  obtain ⟨-, rfl⟩ := Prod.mk.inj hrest
  obtain rfl : [samplePage "a b%c"] = pages := map_reply_injective hreplies
  have htarget : within "/user/alice/logs/" ++ "a b%c" = "/user/alice/logs/a b%c" := by
    decide +kernel
  obtain ⟨-, hresolves⟩ := (List.forall₂_cons.mp hleads).1 "a b%c" rfl
  have hlead := hresolves (by decide +kernel) ["/tmp"]
  rw [htarget, Holds, profile_moves] at hlead
  exact hlead.mpr holds_spaces

/-- What follows a number sign in a name is not read, so that the name leads to another object. -/
theorem leads_astray :
    ((Settings.connect { nameNode := some "nn" } "alice" scripted).run.run openingReplies).1 =
      .ok openedSession ∧
    ∃ info, ((openedSession.listDirectory scripted 5 "/d").run.run [(samplePage "a#b").reply]).1 =
        .ok (some [info]) ∧
      info.name = "hdfs://nn/d/a#b" ∧
      openedSession.workingDirectory.resolve info.name = .ok "/d/a" := by
  have resolves : openedSession.workingDirectory.resolve "/d" = .ok "/d" := by cbv
  have hrun := congrArg Prod.fst (run_listDirectory_sample 4 "a#b" resolves)
  have hname : (FileInfo.ofStatus { sampleStatus [] with path := .ofString "a#b" }
      (openedSession.entryFront "/d")).name = "hdfs://nn/d/a#b" := by
    rw [FileInfo.ofStatus, Data.lossyText_ofString]
    decide +kernel
  refine ⟨connect_opening, _, hrun, hname, ?_⟩
  have hresolve : openedSession.workingDirectory.resolve "hdfs://nn/d/a#b" = .ok "/d/a" := by
    cbv
  exact hname ▸ hresolve

end Session

end MetaFs
