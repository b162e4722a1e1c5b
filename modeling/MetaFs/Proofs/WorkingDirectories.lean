import Mathlib
import MetaFs.Proofs.PathText
import MetaFs.Proofs.Urls
import MetaFs.Proofs.Pages
import MetaFs.Settings
/-! The working directory of a session stays absolute as long as no text is taken that has a plain
path behind a scheme of its own. -/

namespace MetaFs

namespace Url

/-- The text has a scheme of its own, and a plain path behind it. -/
def HasPlainPath (text : String) : Prop :=
  ∃ scheme rest, StartsPlain (tidy text.toList) scheme rest

def HasScheme (text : String) : Prop :=
  splitScheme (tidy text.toList) ≠ none

theorem HasPlainPath.hasScheme {text : String} (h : HasPlainPath text) : HasScheme text := by
  obtain ⟨scheme, rest, hstarts⟩ := h
  rw [HasScheme, hstarts.split]
  exact Option.some_ne_none _

/-- A slash behind the first colon begins a path of segments. -/
theorem not_hasPlainPath_of_slash {text : String} {scheme rest : List Char} (hscheme : ':' ∉ scheme)
    (htext : text.toList = scheme ++ ':' :: '/' :: rest) : ¬HasPlainPath text := by
  rintro ⟨scheme', rest', hstarts⟩
  obtain ⟨front, back, htidy, hfront⟩ :=
    exists_tidy_append (a := scheme) (b := rest) (c := ':') (d := '/') (by decide) (by decide)
  have hsplit := hstarts.split
  rw [htext, htidy] at hsplit
  have hrest := eq_of_splitScheme (fun hmem => hscheme (hfront _ hmem)) hsplit
  exact hstarts.noSlash (by rw [hrest]; rfl)

/-- The URL of a directory: without a query and a fragment, and with a slash at its end. -/
structure IsDirectory (url : Url) : Prop extends url.Proper where
  query : url.query = none
  fragment : url.fragment = none
  slash : ∀ segments, url.path = .rooted segments → ∃ front, segments = front ++ [[]]
  nonempty : ∀ text, url.path = .plain text → text ≠ []

theorem Proper.isDirectory {url : Url} (h : url.Proper) :
    url.asDirectory.IsDirectory ∧ url.asDirectory.path.isPlain = url.path.isPlain := by
  have hpath := h.path
  have hplain := h.plain
  cases hp : url.path with
  | plain text =>
    rw [hp] at hpath hplain
    obtain ⟨text', hslashed, hnonempty, hproper⟩ := slashed_plain (isFile url.scheme) hpath
    have hdirectory : url.asDirectory.path = .plain text' := by
      rw [asDirectory, hp, hslashed]
    have hdirectoryProper : url.asDirectory.Proper :=
      ⟨⟨h.scheme, h.authority⟩, hdirectory ▸ hproper, fun _ => hplain rfl⟩
    refine ⟨⟨hdirectoryProper, rfl, rfl, ?_, ?_⟩, ?_⟩
    · intro segments hsegments
      rw [hdirectory] at hsegments
      cases hsegments
    · intro text htext
      rw [hdirectory] at htext
      cases htext
      exact hnonempty
    · rw [hdirectory]
      rfl
  | rooted segments =>
    rw [hp] at hpath
    obtain ⟨front, hslashed, hfront⟩ := slashed_rooted (isFile url.scheme) hpath
    have hdirectory : url.asDirectory.path = .rooted (front ++ [[]]) := by
      rw [asDirectory, hp, hslashed]
    have hrooted : url.asDirectory.Rooted := ⟨⟨h.scheme, h.authority⟩, _, hdirectory,
      List.forall_mem_append.mpr ⟨hfront, List.forall_mem_singleton.mpr Path.settled_nil⟩⟩
    refine ⟨⟨hrooted.proper, rfl, rfl, ?_, ?_⟩, ?_⟩
    · intro segments hsegments
      rw [hdirectory] at hsegments
      cases hsegments
      exact ⟨front, rfl⟩
    · intro text htext
      rw [hdirectory] at htext
      cases htext
    · rw [hdirectory]
      rfl

/-- The text of nothing leads to the place where one is. -/
theorem parse_nil {base : Url} (h : base.path.isPlain = false) :
    parse (some base) "" = .ok { base with fragment := none } := by
  show (if base.path.isPlain = true then .error .relativeToPlainPath
    else if isFile base.scheme = true then readFile (some base) []
    else readRelative base []) = Except.ok { base with fragment := none }
  rw [h, if_neg Bool.false_ne_true]
  split_ifs <;> rfl

end Url

namespace Uri

variable {text : String} {base : Option Uri} {directory : Bool} {uri : Uri} {e : Error}

/-- The path of a URI is that of its URL, in plain text. -/
structure Proper (uri : Uri) : Prop where
  url : uri.url.Proper
  path : Percent.decodePath uri.url.path.text = .ok uri.path.toList

theorem parse_of_ok {url : Url} (h : Url.parse (base.map Uri.url) text = .ok url) :
    parse text base directory =
      match Percent.decodePath (if directory then url.asDirectory else url).path.text with
      | .ok path => .ok ⟨if directory then url.asDirectory else url, String.ofList path⟩
      | .error e => .error (notText text e.message) := by
  rw [parse, h]
  rfl

theorem parse_of_error {reason : Url.UrlError}
    (h : Url.parse (base.map Uri.url) text = .error reason) :
    parse text base directory = .error (invalid text reason.message) := by
  rw [parse, h]
  rfl

theorem parse_eq_ok (h : parse text base directory = .ok uri) : ∃ url,
    Url.parse (base.map Uri.url) text = .ok url ∧
    uri.url = (if directory then url.asDirectory else url) ∧
    Percent.decodePath uri.url.path.text = .ok uri.path.toList := by
  cases hurl : Url.parse (base.map Uri.url) text with
  | error reason =>
    rw [parse_of_error hurl] at h
    cases h
  | ok url =>
    rw [parse_of_ok hurl] at h
    split at h
    · rename_i path hpath
      cases h
      refine ⟨url, rfl, rfl, ?_⟩
      rw [String.toList_ofList]
      exact hpath
    · cases h

/-- A text that is no URI is an invalid argument. -/
theorem errno_of_parse (h : parse text base directory = .error e) : e.errno = .inval := by
  cases hurl : Url.parse (base.map Uri.url) text with
  | error reason =>
    rw [parse_of_error hurl] at h
    cases h
    rfl
  | ok url =>
    rw [parse_of_ok hurl] at h
    split at h
    · cases h
    · cases h
      rfl

/-- A rooted path is made of the names that its segments stand for. -/
theorem Proper.names (h : uri.Proper) {segments : List Url.Segment}
    (hpath : uri.url.path = .rooted segments) : ∃ names,
      List.Forall₂ (fun raw name => Percent.decodePath raw = .ok name) segments names ∧
      uri.path.toList = names.flatMap ('/' :: ·) := by
  have hdecode := h.path
  rw [hpath] at hdecode
  exact Percent.decodePath_flatMap.mp hdecode

/-- A plain path that does not begin with a slash has none at its beginning in plain text either. -/
theorem Proper.head?_ne (h : uri.Proper) (hplain : uri.url.path.isPlain = true) :
    uri.path.toList.head? ≠ some '/' := by
  intro hhead
  obtain ⟨tail, htail⟩ := List.head?_eq_some_iff.mp hhead
  have hdecode := h.path
  rw [htail] at hdecode
  obtain ⟨rest, hrest⟩ := Percent.eq_cons_slash_of_decodePath hdecode
  have hproper := h.url.path
  cases hp : uri.url.path with
  | plain text =>
    rw [hp] at hproper hrest
    replace hrest : text = '/' :: rest := hrest
    exact hproper.2 (by rw [hrest]; rfl)
  | rooted segments =>
    rw [hp] at hplain
    cases hplain

end Uri

namespace WorkingDirectory

variable {wd wd' : WorkingDirectory} {text : String}

/-- An absolute path with a slash at its end, which is where the text of nothing leads. -/
structure Absolute (wd : WorkingDirectory) : Prop where
  begins : wd.uri.path.toList.head? = some '/'
  ends : wd.uri.path.toList.getLast? = some '/'
  noQuery : '?' ∉ wd.text.toList
  noFragment : '#' ∉ wd.text.toList
  resolves : wd.resolve "" = .ok wd.uri.path

/-- What every working directory is, absolute or not. -/
structure Kept (wd : WorkingDirectory) : Prop extends wd.uri.Proper where
  directory : wd.uri.url.IsDirectory

theorem Kept.unmarked (h : wd.Kept) : '?' ∉ wd.text.toList ∧ '#' ∉ wd.text.toList := by
  have htext : Url.Unmarked wd.text.toList := by
    rw [text, Uri.text, String.toList_ofList]
    exact h.url.text h.directory.query h.directory.fragment
  constructor
  · intro hquery
    cases htext _ hquery
  · intro hfragment
    cases htext _ hfragment

theorem text_concat_nil (front : List Url.Segment) :
    (Url.Path.rooted (front ++ [[]])).text = (Url.Path.rooted front).text ++ ['/'] := by
  rw [Url.Path.text, Url.Path.text, List.flatMap_append]
  rfl

theorem resolve_nil (h : wd.Kept) (hplain : wd.uri.url.path.isPlain = false) :
    wd.resolve "" = .ok wd.uri.path := by
  have hurl : Url.parse ((some wd.uri).map Uri.url) "" =
      .ok { wd.uri.url with fragment := none } := Url.parse_nil hplain
  have huri : Uri.parse "" (some wd.uri) false =
      .ok ⟨{ wd.uri.url with fragment := none }, wd.uri.path⟩ := by
    rw [Uri.parse_of_ok hurl]
    simp only [Bool.false_eq_true, if_false]
    rw [h.path]
    dsimp only
    rw [String.ofList_toList]
  rw [resolve, huri]
  show Except.ok (if wd.uri.path.isEmpty = true then wd.uri.path else wd.uri.path) = _
  rw [ite_self]

/-- A directory is absolute exactly if its path is not plain. -/
theorem Kept.absolute_iff (h : wd.Kept) : wd.Absolute ↔ wd.uri.url.path.isPlain = false := by
  constructor
  · intro habsolute
    by_contra hplain
    exact h.head?_ne (Bool.eq_true_of_not_eq_false hplain) habsolute.begins
  · intro hplain
    obtain ⟨segments, hpath, -⟩ := (h.url.rooted hplain).settled
    obtain ⟨front, rfl⟩ := h.directory.slash segments hpath
    obtain ⟨names, hnames, hbegin⟩ := h.names hpath
    have hdecode := h.path
    rw [hpath, text_concat_nil] at hdecode
    obtain ⟨first, last, hend, -, hlast⟩ := Percent.decodePath_append_slash.mp hdecode
    rw [Percent.decodePath_nil] at hlast
    cases hlast
    -- The slash of the first segment begins the path, and that of the empty last one ends it.
    refine ⟨?_, ?_, h.unmarked.1, h.unmarked.2, resolve_nil h hplain⟩
    · obtain ⟨segment, rest, hcons⟩ : ∃ segment rest, front ++ [[]] = segment :: rest :=
        List.exists_cons_of_ne_nil (by simp)
      rw [hcons] at hnames
      cases hnames
      rw [hbegin]
      rfl
    · rw [hend, List.getLast?_concat]

theorem set_eq_ok (h : wd.set text = .ok wd') :
    Uri.parse text (some wd.uri) true = .ok wd'.uri := by
  rw [set] at h
  split at h
  · rename_i uri huri
    cases h
    exact huri
  · cases h

theorem kept_of_parse {base : Option Uri} {uri : Uri} (hbase : ∀ b ∈ base, b.Proper)
    (h : Uri.parse text base true = .ok uri) : Kept ⟨uri⟩ ∧
      ∃ url, Url.Reads (base.map Uri.url) (Url.tidy text.toList) url ∧
        uri.url.path.isPlain = url.path.isPlain := by
  obtain ⟨url, hurl, huri, hpath⟩ := Uri.parse_eq_ok h
  rw [if_pos rfl] at huri
  have hbaseUrl : ∀ b ∈ base.map Uri.url, b.Proper := by
    intro b hb
    obtain ⟨uri', huri', rfl⟩ := Option.map_eq_some_iff.mp hb
    exact (hbase uri' huri').url
  obtain ⟨hproper, hreads⟩ := Url.proper_of_parse hbaseUrl hurl
  obtain ⟨hdirectory, hplain⟩ := hproper.isDirectory
  rw [← huri] at hdirectory hplain
  exact ⟨⟨⟨hdirectory.toProper, hpath⟩, hdirectory⟩, url, hreads, hplain⟩

/-- What one text makes of the working directory: a plain path, if it has one behind its scheme, and
else one that is absolute, unless the text has no scheme and starts from a directory that is not. -/
theorem Kept.set (h : wd.Kept) (hset : wd.set text = .ok wd') : wd'.Kept ∧
    (wd'.Absolute ↔ ¬Url.HasPlainPath text ∧ (Url.HasScheme text ∨ wd.Absolute)) := by
  have hbase : ∀ b ∈ some wd.uri, b.Proper := by
    rintro b ⟨⟩
    exact h.toProper
  obtain ⟨hkept, url, hreads, hplain⟩ := kept_of_parse hbase (set_eq_ok hset)
  refine ⟨hkept, ?_⟩
  rw [hkept.absolute_iff, hplain, h.absolute_iff]
  cases hreads with
  | plain starts path =>
    rw [path]
    constructor
    · rintro ⟨⟩
    · rintro ⟨hno, -⟩
      exact absurd ⟨_, _, starts⟩ hno
  | kept scheme base plain path =>
    cases base
    rw [path, plain]
    constructor
    · rintro ⟨⟩
    · rintro ⟨-, hscheme | hrooted⟩
      · exact absurd scheme hscheme
      · cases hrooted
  | rooted rooted starts base =>
    refine iff_of_true rooted.isPlain ⟨fun ⟨_, _, hstarts⟩ => starts _ _ hstarts, ?_⟩
    rcases base with hscheme | ⟨b, hb, hrooted⟩
    · exact .inl hscheme
    · cases hb
      exact .inr hrooted

end WorkingDirectory

namespace Settings

variable {σ : Type} {settings : Settings} {user : String} {link : Link σ} {state : σ} {s : Session}

theorem not_hasPlainPath_home {scheme : String} (hscheme : ':' ∉ scheme.toList) (user : String) :
    ¬Url.HasPlainPath s!"{scheme}:///user/{user}/" := by
  have htext : s!"{scheme}:///user/{user}/".toList =
      scheme.toList ++ ':' :: '/' :: ('/' :: '/' :: "user/".toList ++ user.toList ++ ['/']) := by
    simp [toString]
  exact Url.not_hasPlainPath_of_slash hscheme htext

theorem kept_home {scheme : String} {wd : WorkingDirectory} (hscheme : ':' ∉ scheme.toList)
    (h : home scheme user = .ok wd) : wd.Kept ∧ wd.Absolute := by
  rw [home] at h
  split at h
  · rename_i uri huri
    cases h
    obtain ⟨hkept, url, hreads, hplain⟩ :=
      WorkingDirectory.kept_of_parse (by rintro b ⟨⟩) huri
    refine ⟨hkept, hkept.absolute_iff.mpr ?_⟩
    rw [hplain]
    cases hreads with
    | plain starts path => exact absurd ⟨_, _, starts⟩ (not_hasPlainPath_home hscheme user)
    | kept scheme base => cases base
    | rooted rooted => exact rooted.isPlain
  · cases h

theorem colon_notMem_scheme {text : String} {uri : Uri} {directory : Bool}
    (h : Uri.parse text none directory = .ok uri) : ':' ∉ uri.scheme.toList := by
  obtain ⟨url, hurl, huri, -⟩ := Uri.parse_eq_ok h
  have hbase : ∀ b ∈ (none : Option Url), b.Proper := by rintro b ⟨⟩
  have hproper := (Url.proper_of_parse hbase hurl).1
  have hscheme : uri.url.scheme = url.scheme := by
    rw [huri]
    split_ifs <;> rfl
  rw [Uri.scheme, String.toList_ofList, hscheme]
  intro hmem
  cases hproper.scheme ':' hmem

theorem home_of_profile {profile : Profile} (h : settings.profile user = .ok profile) :
    ∃ scheme name, ':' ∉ scheme.toList ∧ home scheme name = .ok profile.home := by
  rw [Settings.profile] at h
  split_ifs at h
  · cases h
  · obtain ⟨text, -, h⟩ := eq_ok_of_bind h
    obtain ⟨uri, huri, h⟩ := eq_ok_of_bind h
    obtain ⟨address, -, h⟩ := eq_ok_of_bind h
    obtain ⟨wd, hhome, h⟩ := eq_ok_of_bind h
    obtain ⟨umask, -, h⟩ := eq_ok_of_bind h
    obtain ⟨millis, -, h⟩ := eq_ok_of_bind h
    cases h
    exact ⟨_, _, colon_notMem_scheme huri, hhome⟩

theorem eq_ok_of_run_ofExcept {x : Except Error Profile} {profile : Profile} {t u : σ}
    (h : (connect.ofExcept x : Over σ Profile).run.run t = (.ok profile, u)) : x = .ok profile := by
  cases x with
  | error e => cases h
  | ok profile' =>
    cases h
    rfl

theorem workingDirectory_of_probe {profile : Profile} {t u : σ}
    (h : (probe profile link).run.run t = (.ok s, u)) : s.workingDirectory = profile.home := by
  rw [probe] at h
  obtain ⟨body, v, -, h⟩ := Over.run_bind_eq_ok h
  split at h
  · cases h
    rfl
  · cases h

/-- A session starts in its home, which is absolute. -/
theorem kept_of_connect (h : ((settings.connect user link).run.run state).1 = .ok s) :
    s.workingDirectory.Kept ∧ s.workingDirectory.Absolute := by
  obtain ⟨t, hrun⟩ : ∃ t, (settings.connect user link).run.run state = (.ok s, t) :=
    ⟨_, Prod.ext h rfl⟩
  rw [connect, Over.run_within] at hrun
  obtain ⟨outcome, u, hinner⟩ : ∃ outcome u, (do
      let profile ← connect.ofExcept (settings.profile user)
      link.start profile.address profile.user
      tryCatch (probe profile link) fun e => do
        link.finish
        throw e : Over σ Session).run.run state = (outcome, u) := ⟨_, _, rfl⟩
  rw [hinner] at hrun
  cases outcome with
  | error e => cases hrun
  | ok s' =>
    cases hrun
    obtain ⟨profile, v, hprofile, hinner⟩ := Over.run_bind_eq_ok hinner
    obtain ⟨-, w, -, hprobe⟩ := Over.run_bind_eq_ok hinner
    obtain ⟨scheme, name, hscheme, hhome⟩ := home_of_profile (eq_ok_of_run_ofExcept hprofile)
    rw [Over.run_tryCatch] at hprobe
    split at hprobe
    · rename_i hstart
      cases hprobe
      rw [workingDirectory_of_probe hstart]
      exact kept_home hscheme hhome
    · cases hprobe

end Settings

namespace Session

variable {σ : Type} {settings : Settings} {user text : String} {link : Link σ} {state : σ}
  {s : Session}

/-- Changes the directory, or stays where it is if that fails. -/
def move (s : Session) (text : String) : Session :=
  match s.setWorkingDirectory text with
  | .ok next => next
  | .error _ => s

def moves (s : Session) (texts : List String) : Session :=
  texts.foldl move s

theorem moves_concat (s : Session) (texts : List String) (text : String) :
    s.moves (texts ++ [text]) = (s.moves texts).move text := by
  rw [moves, List.foldl_append]
  rfl

/-- The text is taken as the new directory. -/
def Takes (s : Session) (text : String) : Prop :=
  ∃ next, s.setWorkingDirectory text = .ok next

theorem move_of_not_takes (h : ¬s.Takes text) : s.move text = s := by
  rw [move]
  split
  · rename_i next hnext
    exact absurd ⟨next, hnext⟩ h
  · rfl

theorem set_of_takes (h : s.Takes text) :
    s.workingDirectory.set text = .ok (s.move text).workingDirectory := by
  obtain ⟨next, hnext⟩ := h
  rw [move, hnext]
  dsimp only
  rw [setWorkingDirectory] at hnext
  obtain ⟨wd, hwd, hnext⟩ := eq_ok_of_bind hnext
  cases hnext
  exact hwd

theorem kept_move (h : s.workingDirectory.Kept) (text : String) :
    (s.move text).workingDirectory.Kept := by
  by_cases htakes : s.Takes text
  · exact (h.set (set_of_takes htakes)).1
  · rwa [move_of_not_takes htakes]

/-- What a text that is taken makes of the directory. -/
theorem absolute_move_iff (h : s.workingDirectory.Kept) (htakes : s.Takes text) :
    (s.move text).workingDirectory.Absolute ↔
      ¬Url.HasPlainPath text ∧ (Url.HasScheme text ∨ s.workingDirectory.Absolute) :=
  (h.set (set_of_takes htakes)).2

theorem kept_moves (h : s.workingDirectory.Kept) (texts : List String) :
    (s.moves texts).workingDirectory.Kept := by
  induction texts using List.reverseRecOn with
  | nil => exact h
  | append_singleton texts text ih =>
    rw [moves_concat]
    exact kept_move ih text

/-- However often the directory of a session is changed, there is neither a query nor a fragment in
its text. It stays absolute exactly as long as none of the texts that are taken has a plain path
behind a scheme of its own. -/
theorem absolute_moves_iff (h : ((settings.connect user link).run.run state).1 = .ok s)
    (texts : List String) :
    ('?' ∉ (s.moves texts).workingDirectory.text.toList ∧
      '#' ∉ (s.moves texts).workingDirectory.text.toList) ∧
    ((∀ earlier, earlier <+: texts → (s.moves earlier).workingDirectory.Absolute) ↔
      ∀ earlier text, earlier ++ [text] <+: texts → Url.HasPlainPath text →
        ¬(s.moves earlier).Takes text) := by
  obtain ⟨hkept, hhome⟩ := Settings.kept_of_connect h
  refine ⟨(kept_moves hkept texts).unmarked, ?_, ?_⟩
  · intro habsolute earlier text hprefix hplain htakes
    have hnext := habsolute _ hprefix
    rw [moves_concat, absolute_move_iff (kept_moves hkept earlier) htakes] at hnext
    exact hnext.1 hplain
  · intro hplain earlier hprefix
    -- Each call is refused, or keeps the directory absolute as the calls before it did.
    induction earlier using List.reverseRecOn with
    | nil => exact hhome
    | append_singleton earlier text ih =>
      have hbefore := ih ((List.prefix_append earlier [text]).trans hprefix)
      rw [moves_concat]
      by_cases htakes : (s.moves earlier).Takes text
      · rw [absolute_move_iff (kept_moves hkept earlier) htakes]
        exact ⟨fun h => hplain earlier text hprefix h htakes, .inr hbefore⟩
      · rwa [move_of_not_takes htakes]

/-- A session that was opened on an authority that answers with these defaults. -/
def openedHome : WorkingDirectory := ⟨⟨⟨['h', 'd', 'f', 's'], some {},
  .rooted [['u', 's', 'e', 'r'], ['a', 'l', 'i', 'c', 'e'], []], none, none⟩, "/user/alice/"⟩⟩

def openedSession : Session where
  profile := { sampleSession.profile with
    user := "alice"
    home := openedHome
    deadNodeMillis := 600000 }
  workingDirectory := openedHome
  blockSize := 134217728

def openingReplies : List (Except Error Body) :=
  [.ok (.reply (.getServerDefaults ⟨134217728, 512, 65536, 3, 4096⟩))]

theorem connect_opening : (((Settings.connect { nameNode := some "nn" } "alice" scripted).run.run
    openingReplies).1 = .ok openedSession) := by
  cbv

/-- The third text has a plain path that is no UTF-8, and so it is not taken. -/
theorem absolute_moves_iff_opening :
    ((Settings.connect { nameNode := some "nn" } "alice" scripted).run.run openingReplies).1 =
      .ok openedSession ∧
    (∀ earlier, earlier <+: ["hdfs://nn/tmp?x=1", "logs", "a:%FF"] →
      (openedSession.moves earlier).workingDirectory.Absolute) ∧
    (openedSession.moves ["hdfs://nn/tmp?x=1", "logs", "a:%FF"]).workingDirectory.uri.path =
      "/tmp/logs/" := by
  have hpath : (openedSession.moves
      ["hdfs://nn/tmp?x=1", "logs", "a:%FF"]).workingDirectory.uri.path = "/tmp/logs/" := by cbv
  have hmoves := absolute_moves_iff connect_opening ["hdfs://nn/tmp?x=1", "logs", "a:%FF"]
  refine ⟨connect_opening, hmoves.2.mpr ?_, hpath⟩
  rintro earlier text ⟨rest, htexts⟩ ⟨scheme, tail, hstarts⟩ ⟨next, hnext⟩
  rcases earlier with _ | ⟨first, _ | ⟨second, _ | ⟨third, earlier⟩⟩⟩
  · cases htexts
    have hslash : "hdfs://nn/tmp?x=1".toList =
        "hdfs".toList ++ ':' :: '/' :: "/nn/tmp?x=1".toList := by decide
    exact Url.not_hasPlainPath_of_slash (by decide) hslash ⟨scheme, tail, hstarts⟩
  · cases htexts
    have hnone : Url.splitScheme (Url.tidy "logs".toList) = none := by decide +kernel
    exact Url.HasPlainPath.hasScheme ⟨scheme, tail, hstarts⟩ hnone
  · cases htexts
    have hrefused : ((openedSession.moves ["hdfs://nn/tmp?x=1", "logs"]).setWorkingDirectory
        "a:%FF").toOption.isNone = true := by cbv
    rw [hnext] at hrefused
    cases hrefused
  · simp at htexts

/-- A name with a colon in it is taken for a scheme and a plain path. -/
theorem moves_colon :
    ((Settings.connect { nameNode := some "nn" } "alice" scripted).run.run openingReplies).1 =
      .ok openedSession ∧
    (openedSession.moves ["a:b"]).workingDirectory.uri.path = "b/" ∧
    ¬(openedSession.moves ["a:b"]).workingDirectory.Absolute := by
  have hpath : (openedSession.moves ["a:b"]).workingDirectory.uri.path = "b/" := by cbv
  refine ⟨connect_opening, hpath, fun habsolute => ?_⟩
  have hbegins := habsolute.begins
  rw [hpath] at hbegins
  cases hbegins

end Session

end MetaFs
