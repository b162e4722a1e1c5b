import Mathlib
import MetaFs.Proofs.WorkingDirectories
/-! The paths that texts stand for. A path of segments is normalized when it is read; a plain path
is passed on as it is. -/

namespace MetaFs

/-- An absolute path without dot segments. -/
structure Normalized (path : String) : Prop where
  begins : path.toList.head? = some '/'
  noDot : ['.'] ∉ path.toList.splitOn '/'
  noDoubleDot : ['.', '.'] ∉ path.toList.splitOn '/'

theorem flatMap_eq_intercalate (names : List (List Char)) :
    names.flatMap ('/' :: ·) = ['/'].intercalate ([] :: names) := by
  induction names with
  | nil => rfl
  | cons name names ih =>
    rw [List.flatMap_cons, ih, List.intercalate_cons_cons]
    cases names with
    | nil => simp
    | cons next names => simp

theorem splitOn_flatMap {names : List (List Char)} (h : ∀ name ∈ names, '/' ∉ name) :
    (names.flatMap ('/' :: ·)).splitOn '/' = [] :: names := by
  rw [flatMap_eq_intercalate, List.splitOn_intercalate]
  · rintro name hname
    rcases List.mem_cons.mp hname with rfl | hmem
    · exact List.not_mem_nil
    · exact h name hmem
  · exact List.cons_ne_nil _ _

theorem normalized_of_names {path : String} {names : List (List Char)}
    (hpath : path.toList = names.flatMap ('/' :: ·)) (hne : names ≠ [])
    (hnames : ∀ name ∈ names, Url.Path.IsName name) : Normalized path := by
  have hsplit : path.toList.splitOn '/' = [] :: names := by
    rw [hpath, splitOn_flatMap fun name hname => (hnames name hname).undivided]
  refine ⟨?_, ?_, ?_⟩
  · obtain ⟨name, names, rfl⟩ := List.exists_cons_of_ne_nil hne
    rw [hpath]
    rfl
  · intro hdot
    rw [hsplit] at hdot
    rcases List.mem_cons.mp hdot with hnil | hmem
    · cases hnil
    · exact (hnames _ hmem).ne_dot rfl
  · intro hdouble
    rw [hsplit] at hdouble
    rcases List.mem_cons.mp hdouble with hnil | hmem
    · cases hnil
    · exact (hnames _ hmem).ne_doubleDot rfl

namespace Url

/-- The plain path behind the scheme of the text is not empty. -/
def NamesPlainPath (text : String) : Prop :=
  ∃ scheme rest, StartsPlain (tidy text.toList) scheme rest ∧ (cut endsPath rest).1 ≠ []

/-- The text is a whole URL by itself, with segments in its path. -/
def NamesRootedPath (text : String) : Prop :=
  ∃ url segments, parse none text = .ok url ∧ url.path = .rooted segments ∧ segments ≠ []

theorem NamesPlainPath.hasPlainPath {text : String} (h : NamesPlainPath text) :
    HasPlainPath text := by
  obtain ⟨scheme, rest, hstarts, -⟩ := h
  exact ⟨scheme, rest, hstarts⟩

theorem reads_none {text : String} {url : Url} (h : parse none text = .ok url) :
    Reads none (tidy text.toList) url :=
  (proper_of_parse (by rintro b ⟨⟩) h).2

theorem NamesRootedPath.not_hasPlainPath {text : String} (h : NamesRootedPath text) :
    ¬HasPlainPath text := by
  rintro ⟨scheme, rest, hstarts⟩
  obtain ⟨url, segments, hurl, hpath, -⟩ := h
  cases reads_none hurl with
  | plain starts path =>
    rw [path] at hpath
    cases hpath
  | kept scheme base => cases base
  | rooted rooted starts => exact starts _ _ hstarts

theorem NamesRootedPath.hasScheme {text : String} (h : NamesRootedPath text) : HasScheme text := by
  obtain ⟨url, segments, hurl, -⟩ := h
  cases reads_none hurl with
  | plain starts => exact HasPlainPath.hasScheme ⟨_, _, starts⟩
  | kept scheme base => cases base
  | rooted rooted starts base =>
    rcases base with hscheme | ⟨b, hb, -⟩
    · exact hscheme
    · cases hb

/-- A URL with a plain path is no base for a text that has a scheme. -/
theorem parse_of_plain_base {base : Url} {text : String} (hbase : base.Proper)
    (hplain : base.path.isPlain = true) (hscheme : HasScheme text) :
    parse (some base) text = parse none text := by
  have hspecial := hbase.plain hplain
  rw [isSpecial, Bool.or_eq_false_iff] at hspecial
  obtain ⟨⟨scheme, rest⟩, hsplit⟩ := Option.ne_none_iff_exists'.mp hscheme
  rw [parse.eq_def, parse.eq_def]
  dsimp only
  rw [hsplit]
  dsimp only
  rw [readScheme.eq_def, readScheme.eq_def]
  split_ifs with hfile hweb
  · rw [Option.filter_some, hspecial.2]
    rfl
  · dsimp only
    have hsame : base.scheme ≠ scheme := by
      rintro rfl
      rw [hspecial.1] at hweb
      cases hweb
    rw [if_neg]
    simp [hsame]
  · rfl

end Url

theorem Url.Path.isName_of_settled {segments : List Url.Segment} {names : List (List Char)}
    (hnames : List.Forall₂ (fun raw name => Percent.decodePath raw = .ok name) segments names)
    (hsettled : ∀ segment ∈ segments, Settled segment) : ∀ name ∈ names, IsName name := by
  induction hnames with
  | nil => rintro name ⟨⟩
  | cons hname hnames ih =>
    obtain ⟨hsegment, hsettled⟩ := List.forall_mem_cons.mp hsettled
    exact List.forall_mem_cons.mpr ⟨hsegment.isName hname, ih hsettled⟩

namespace Uri

variable {uri : Uri}

theorem Proper.path_eq_empty_iff (h : uri.Proper) : uri.path = "" ↔ uri.url.path.text = [] := by
  have hdecode := h.path
  constructor
  · intro hempty
    rw [hempty] at hdecode
    exact Percent.eq_nil_of_decodePath hdecode
  · intro hempty
    rw [hempty, Percent.decodePath_nil] at hdecode
    exact String.toList_inj.mp (Except.ok.inj hdecode).symm

/-- A rooted path that is not empty is normalized in plain text. -/
theorem Proper.normalized (h : uri.Proper) (hplain : uri.url.path.isPlain = false)
    (hne : uri.path ≠ "") : Normalized uri.path := by
  obtain ⟨segments, hpath, hsettled⟩ := (h.url.rooted hplain).settled
  obtain ⟨names, hnames, htext⟩ := h.names hpath
  refine normalized_of_names htext ?_ ?_
  · rintro rfl
    exact hne (String.toList_inj.mp htext)
  · exact Url.Path.isName_of_settled hnames hsettled

end Uri

namespace WorkingDirectory

variable {wd : WorkingDirectory} {text path : String}

theorem Kept.normalized_iff (h : wd.Kept) : Normalized wd.uri.path ↔ wd.Absolute := by
  constructor
  · intro hnormalized
    rw [h.absolute_iff]
    by_contra hplain
    exact h.head?_ne (Bool.eq_true_of_not_eq_false hplain) hnormalized.begins
  · intro habsolute
    refine h.normalized (h.absolute_iff.mp habsolute) ?_
    intro hempty
    have hbegins := habsolute.begins
    rw [hempty] at hbegins
    cases hbegins

/-- The text stands for a path that starts at the root and is normalized. -/
def Leads (wd : WorkingDirectory) (text : String) : Prop :=
  wd.Absolute ∧ ¬Url.NamesPlainPath text ∨ Url.NamesRootedPath text

theorem resolve_eq_ok (h : wd.resolve text = .ok path) : ∃ uri,
    Uri.parse text (some wd.uri) false = .ok uri ∧
    path = if uri.path.isEmpty then wd.uri.path else uri.path := by
  rw [resolve] at h
  obtain ⟨uri, huri, h⟩ := eq_ok_of_bind h
  cases h
  exact ⟨uri, huri, rfl⟩

theorem errno_of_resolve {e : Error} (h : wd.resolve text = .error e) : e.errno = .inval := by
  rw [resolve] at h
  cases huri : Uri.parse text (some wd.uri) false with
  | ok uri =>
    rw [huri] at h
    cases h
  | error e' =>
    rw [huri] at h
    cases h
    exact Uri.errno_of_parse huri

/-- The path that a text stands for, and the URI that the text is read as. -/
structure Stands (wd : WorkingDirectory) (text path : String) (uri : Uri) : Prop where
  parsed : Url.parse (some wd.uri.url) text = .ok uri.url
  proper : uri.Proper
  reads : Url.Reads (some wd.uri.url) (Url.tidy text.toList) uri.url
  itself : uri.url.path.text = [] → path = wd.uri.path
  own : uri.url.path.text ≠ [] → path = uri.path

theorem Kept.stands (h : wd.Kept) (hresolve : wd.resolve text = .ok path) :
    ∃ uri, wd.Stands text path uri := by
  obtain ⟨uri, huri, hpath⟩ := resolve_eq_ok hresolve
  obtain ⟨url, hurl, hsame, hdecode⟩ := Uri.parse_eq_ok huri
  rw [if_neg Bool.false_ne_true] at hsame
  subst hsame
  have hbase : ∀ b ∈ some wd.uri.url, b.Proper := by
    rintro b ⟨⟩
    exact h.url
  obtain ⟨hproper, hreads⟩ := Url.proper_of_parse hbase hurl
  have hproperUri : uri.Proper := ⟨hproper, hdecode⟩
  refine ⟨uri, hurl, hproperUri, hreads, fun hempty => ?_, fun hne => ?_⟩
  · rw [hpath, hproperUri.path_eq_empty_iff.mpr hempty]
    rfl
  · rw [hpath, if_neg]
    rw [String.isEmpty_iff, hproperUri.path_eq_empty_iff]
    exact hne

/-- Whatever a text stands for has no dot segments if it starts at the root. -/
theorem Kept.normalized_of_rooted (h : wd.Kept) (hresolve : wd.resolve text = .ok path)
    (hhead : path.toList.head? = some '/') : Normalized path := by
  obtain ⟨uri, hstands⟩ := h.stands hresolve
  by_cases hempty : uri.url.path.text = []
  · rw [hstands.itself hempty] at hhead ⊢
    rw [h.normalized_iff, h.absolute_iff]
    by_contra hplain
    exact h.head?_ne (Bool.eq_true_of_not_eq_false hplain) hhead
  · rw [hstands.own hempty] at hhead ⊢
    have hplain : uri.url.path.isPlain = false := by
      by_contra hplain
      exact hstands.proper.head?_ne (Bool.eq_true_of_not_eq_false hplain) hhead
    exact hstands.proper.normalized hplain (mt hstands.proper.path_eq_empty_iff.mp hempty)

variable {uri : Uri}

theorem Stands.normalized_iff_of_plain (h : wd.Kept) (hstands : wd.Stands text path uri)
    {scheme rest : List Char} (starts : Url.StartsPlain (Url.tidy text.toList) scheme rest)
    (hpath : uri.url.path = .plain (Percent.encode Url.isControl (Url.cut Url.endsPath rest).1)) :
    Normalized path ↔ wd.Leads text := by
  have hrooted : ¬Url.NamesRootedPath text := fun hnames =>
    hnames.not_hasPlainPath ⟨scheme, rest, starts⟩
  -- An empty path stands for the directory itself; any other one does not begin with a slash.
  by_cases hcut : (Url.cut Url.endsPath rest).1 = []
  · have hempty : uri.url.path.text = [] := by
      rw [hpath, hcut]
      rfl
    have hplain : ¬Url.NamesPlainPath text := by
      rintro ⟨scheme', rest', hstarts, hne⟩
      have hsplit := hstarts.split
      rw [starts.split] at hsplit
      cases hsplit
      exact hne hcut
    rw [hstands.itself hempty, h.normalized_iff, Leads]
    simp only [hplain, hrooted, not_false_eq_true, and_true, or_false]
  · have hne : uri.url.path.text ≠ [] := by
      obtain ⟨c, cs, hc⟩ := List.exists_cons_of_ne_nil hcut
      obtain ⟨d, tail, hencode, -⟩ := Url.exists_encode_cons Url.isControl c cs
      rw [hpath, hc, hencode]
      exact List.cons_ne_nil d tail
    have hbegins := hstands.proper.head?_ne (by rw [hpath]; rfl)
    rw [hstands.own hne]
    refine iff_of_false (fun hnormalized => hbegins hnormalized.begins) ?_
    rintro (⟨-, hplain⟩ | hnames)
    · exact hplain ⟨scheme, rest, starts, hcut⟩
    · exact hrooted hnames

theorem Stands.normalized_iff_of_kept (h : wd.Kept) (hstands : wd.Stands text path uri)
    (hscheme : ¬Url.HasScheme text) (hplain : wd.uri.url.path.isPlain = true)
    (hpath : uri.url.path = wd.uri.url.path) : Normalized path ↔ wd.Leads text := by
  have hne : uri.url.path.text ≠ [] := by
    rw [hpath]
    cases hp : wd.uri.url.path with
    | plain plainText => exact h.directory.nonempty plainText hp
    | rooted segments =>
      rw [hp] at hplain
      cases hplain
  have hbegins := hstands.proper.head?_ne (by rw [hpath, hplain])
  rw [hstands.own hne]
  refine iff_of_false (fun hnormalized => hbegins hnormalized.begins) ?_
  rintro (⟨habsolute, -⟩ | hnames)
  · rw [h.absolute_iff, hplain] at habsolute
    cases habsolute
  · exact hscheme hnames.hasScheme

theorem Stands.normalized_iff_of_rooted (h : wd.Kept) (hstands : wd.Stands text path uri)
    (hrooted : uri.url.Rooted) (hstarts : ¬Url.HasPlainPath text)
    (hbase : Url.HasScheme text ∨ wd.uri.url.path.isPlain = false) :
    Normalized path ↔ wd.Leads text := by
  have hplain : ¬Url.NamesPlainPath text := fun hnames => hstarts hnames.hasPlainPath
  -- In a directory that is not absolute only a text with a scheme is read, and that by itself.
  have hnames : ¬wd.Absolute → (Url.NamesRootedPath text ↔ uri.url.path.text ≠ []) := by
    intro hnot
    rw [h.absolute_iff, Bool.not_eq_false] at hnot
    have hscheme : Url.HasScheme text := by
      rcases hbase with hscheme | hfalse
      · exact hscheme
      · rw [hnot] at hfalse
        cases hfalse
    have hparsed := hstands.parsed
    rw [Url.parse_of_plain_base h.url hnot hscheme] at hparsed
    obtain ⟨segments, hpath, -⟩ := hrooted.settled
    constructor
    · rintro ⟨url, segments', hurl, hpath', hne⟩
      rw [hparsed] at hurl
      cases hurl
      rw [hpath']
      cases segments' with
      | nil => exact absurd rfl hne
      | cons segment segments' => exact List.cons_ne_nil _ _
    · intro hne
      refine ⟨uri.url, segments, hparsed, hpath, ?_⟩
      rintro rfl
      exact hne (by rw [hpath]; rfl)
  by_cases hempty : uri.url.path.text = []
  · rw [hstands.itself hempty, h.normalized_iff, Leads]
    by_cases habsolute : wd.Absolute
    · exact iff_of_true habsolute (.inl ⟨habsolute, hplain⟩)
    · simp only [habsolute, hnames habsolute, hempty, false_and, ne_eq, not_true_eq_false,
        or_self]
  · have hne : uri.path ≠ "" := mt hstands.proper.path_eq_empty_iff.mp hempty
    rw [hstands.own hempty]
    refine iff_of_true (hstands.proper.normalized hrooted.isPlain hne) ?_
    by_cases habsolute : wd.Absolute
    · exact .inl ⟨habsolute, hplain⟩
    · exact .inr ((hnames habsolute).mpr hempty)

/-- Which texts stand for a normalized path, in any directory that a session can have. -/
theorem Kept.normalized_resolve_iff (h : wd.Kept) (hresolve : wd.resolve text = .ok path) :
    Normalized path ↔ wd.Leads text := by
  obtain ⟨uri, hstands⟩ := h.stands hresolve
  cases hstands.reads with
  | plain starts hpath => exact hstands.normalized_iff_of_plain h starts hpath
  | kept scheme base plain hpath =>
    cases base
    exact hstands.normalized_iff_of_kept h (fun hscheme => hscheme scheme) plain hpath
  | rooted rooted starts base =>
    refine hstands.normalized_iff_of_rooted h rooted (fun ⟨_, _, hplain⟩ => starts _ _ hplain) ?_
    rcases base with hscheme | ⟨b, hb, hplain⟩
    · exact .inl hscheme
    · cases hb
      exact .inr hplain

end WorkingDirectory

end MetaFs
