import Mathlib
import MetaFs.Proofs.Resolving
import MetaFs.Proofs.PathSizes
/-! Paths that are pasted into a URL. What is read of them is followed from the root, and that is
the path itself exactly if nothing of it is dropped, taken for something else or decoded to
something else. -/

namespace MetaFs

namespace Url

section Texts

variable {scheme text rest front : List Char} {c d : Char}

/-- The characters that count within a text. -/
def isKept (c : Char) : Bool :=
  c ≠ '\t' && c ≠ '\n' && c ≠ '\r'

/-- What counts of a text at the end of a URL: neither blanks behind it nor line ends within. -/
def visible (text : List Char) : List Char :=
  (text.reverse.dropWhile (·.toNat ≤ 32)).reverse.filter isKept

theorem visible_sublist (text : List Char) : (visible text).Sublist text := by
  have hdrop := (List.dropWhile_sublist (fun c : Char => decide (c.toNat ≤ 32))
    (l := text.reverse)).reverse
  rw [List.reverse_reverse] at hdrop
  exact List.filter_sublist.trans hdrop

theorem tidy_append (hc : 32 < c.toNat) (hd : 32 < d.toNat) :
    tidy (c :: front ++ d :: text) = (c :: front).filter isKept ++ d :: visible text := by
  have hfront : (c :: front ++ d :: text).dropWhile (·.toNat ≤ 32) = c :: front ++ d :: text := by
    rw [List.cons_append, List.dropWhile_cons, not_blank hc]
    rfl
  have hback : ((c :: front ++ d :: text).reverse.dropWhile (·.toNat ≤ 32)).reverse =
      c :: front ++ d :: (text.reverse.dropWhile (·.toNat ≤ 32)).reverse := by
    rw [List.reverse_append, List.reverse_cons, List.append_assoc,
      List.singleton_append, dropWhile_append_cons (not_blank hd)]
    simp
  rw [tidy, hfront, hback]
  show (c :: front ++ d :: (text.reverse.dropWhile (·.toNat ≤ 32)).reverse).filter isKept = _
  have hkept : isKept d = true := is_kept hd
  rw [List.filter_append, List.filter_cons_of_pos hkept]
  rfl

theorem oneLine_iff : ('\t' ∉ text ∧ '\n' ∉ text ∧ '\r' ∉ text) ↔ text.filter isKept = text := by
  rw [List.filter_eq_self]
  constructor
  · rintro ⟨htab, hline, hreturn⟩ c hc
    simp only [isKept, Bool.and_eq_true, decide_eq_true_eq]
    exact ⟨⟨fun h => htab (h ▸ hc), fun h => hline (h ▸ hc)⟩, fun h => hreturn (h ▸ hc)⟩
  · intro h
    refine ⟨?_, ?_, ?_⟩
    · intro hc
      cases h _ hc
    · intro hc
      cases h _ hc
    · intro hc
      cases h _ hc

theorem visible_eq_iff : visible text = text ↔
    text.filter isKept = text ∧ ∀ c ∈ text.getLast?, 32 < c.toNat := by
  have hlast : (text.reverse.dropWhile (·.toNat ≤ 32)).reverse = text ↔
      ∀ c ∈ text.getLast?, 32 < c.toNat := by
    rw [List.reverse_eq_iff, ← List.head?_reverse]
    cases text.reverse with
    | nil => simp
    | cons c back =>
      rw [List.dropWhile_cons]
      by_cases hc : c.toNat ≤ 32
      · rw [if_pos (decide_eq_true hc)]
        refine iff_of_false (fun h => ?_) fun h => absurd (h c rfl) (Nat.not_lt.mpr hc)
        have hle := (List.dropWhile_sublist (fun c : Char => decide (c.toNat ≤ 32))
          (l := back)).length_le
        rw [h, List.length_cons] at hle
        omega
      · rw [if_neg (by simpa using hc)]
        refine iff_of_true rfl ?_
        rintro d ⟨⟩
        exact Nat.lt_of_not_le hc
  rw [← hlast]
  constructor
  · intro h
    -- What is dropped at the end cannot come back.
    have hdrop : (text.reverse.dropWhile (·.toNat ≤ 32)).reverse.Sublist text := by
      have hsub := (List.dropWhile_sublist (fun c : Char => decide (c.toNat ≤ 32))
        (l := text.reverse)).reverse
      rwa [List.reverse_reverse] at hsub
    have hfilter : (visible text).Sublist (text.reverse.dropWhile (·.toNat ≤ 32)).reverse :=
      List.filter_sublist
    rw [h] at hfilter
    have htrim := hdrop.antisymm hfilter
    rw [visible, htrim] at h
    exact ⟨h, htrim⟩
  · rintro ⟨hkept, htrim⟩
    rw [visible, htrim, hkept]

/-- What is read as a scheme: a letter and more, in lower case. -/
structure ReadScheme (scheme : List Char) : Prop where
  isScheme : IsScheme scheme
  lower : scheme.map lower = scheme
  letter : ∃ c tail, scheme = c :: tail ∧ isAlpha c = true

theorem readScheme_of_splitScheme (h : splitScheme text = some (scheme, rest)) :
    ReadScheme scheme := by
  have hscheme := isScheme_of_splitScheme h
  rw [splitScheme.eq_def] at h
  split at h
  · rename_i first after name _ rest' hcut
    split_ifs at h with hname
    cases h
    simp only [Bool.and_eq_true] at hname
    refine ⟨hscheme, ?_, ?_⟩
    · rw [List.map_map]
      exact List.map_congr_left fun c _ => lower_lower c
    · have hfirst : (!decide (first = ':')) = true := by
        rw [Bool.not_eq_true', decide_eq_false_iff_not]
        rintro rfl
        cases hname.1
      rw [cut, List.takeWhile_cons, if_pos hfirst] at hcut
      obtain ⟨rfl, -⟩ := Prod.mk.inj hcut
      exact ⟨_, _, rfl, isAlpha_lower hname.1⟩
  · cases h

/-- A scheme that was read is read again. -/
theorem ReadScheme.splitScheme (h : ReadScheme scheme) (more : List Char) :
    splitScheme (scheme ++ ':' :: more) = some (scheme, more) := by
  have hcolon : ∀ c ∈ scheme, (!decide (c = ':')) = true := by
    intro c hc
    rw [Bool.not_eq_true', decide_eq_false_iff_not]
    rintro rfl
    cases h.isScheme ':' hc
  have hcut : cut (· = ':') (scheme ++ ':' :: more) = (scheme, ':' :: more) := by
    rw [cut, List.takeWhile_append_of_pos hcolon, List.dropWhile_append_of_pos hcolon,
      List.takeWhile_cons, List.dropWhile_cons]
    simp
  obtain ⟨c, tail, rfl, hc⟩ := h.letter
  have hall : (isAlpha c && (c :: tail).all splitScheme.isSchemeChar) = true := by
    rw [hc, List.all_eq_true.mpr h.isScheme]
    rfl
  rw [List.cons_append] at hcut ⊢
  rw [Url.splitScheme.eq_def, hcut]
  show (if (isAlpha c && (c :: tail).all splitScheme.isSchemeChar) = true
    then some ((c :: tail).map Url.lower, more) else none) = _
  rw [if_pos hall, h.lower]

theorem isSchemeChar_visible {c : Char} (h : splitScheme.isSchemeChar c = true) :
    32 < c.toNat := by
  simp only [splitScheme.isSchemeChar, isAlpha, Bool.or_eq_true, Bool.and_eq_true,
    decide_eq_true_eq] at h
  rcases h with (((hrange | hrange) | rfl) | rfl) | rfl
  · omega
  · have hdigit : 48 ≤ c.toNat ∧ c.toNat ≤ 57 := hrange
    omega
  all_goals decide

/-- A text with a scheme of its own is read by that scheme, whatever it is relative to. -/
theorem ReadScheme.parse_eq (h : ReadScheme scheme) (hd : 32 < d.toNat) (base : Option Url)
    {given : String} (hgiven : given.toList = scheme ++ ':' :: front ++ d :: text) :
    parse base given = readScheme base scheme (front.filter isKept ++ d :: visible text) := by
  have hscheme : scheme.filter isKept = scheme :=
    List.filter_eq_self.mpr fun c hc => is_kept (isSchemeChar_visible (h.isScheme c hc))
  have htidy : tidy given.toList = scheme ++ ':' :: (front.filter isKept ++ d :: visible text) := by
    obtain ⟨c, tail, rfl, -⟩ := h.letter
    have hc : 32 < c.toNat := isSchemeChar_visible (h.isScheme c List.mem_cons_self)
    rw [hgiven]
    show tidy (c :: (tail ++ ':' :: front) ++ d :: text) = _
    rw [tidy_append hc hd, ← List.cons_append, List.filter_append, hscheme, List.append_assoc]
    rfl
  rw [parse.eq_def]
  dsimp only
  rw [htidy, h.splitScheme]

theorem unmarked_iff : ('?' ∉ text ∧ '#' ∉ text) ↔ Unmarked text := by
  constructor
  · rintro ⟨hquery, hfragment⟩ c hc
    simp only [endsPath, Bool.or_eq_false_iff, decide_eq_false_iff_not]
    exact ⟨fun h => hquery (h ▸ hc), fun h => hfragment (h ▸ hc)⟩
  · intro h
    constructor
    · intro hc
      cases h _ hc
    · intro hc
      cases h _ hc

end Texts

section Followed

variable {file special : Bool} {place segments more : List Segment} {first segment : Segment}
  {text route name : List Char}

/-- The segments that a text is followed to. -/
def followed (file special : Bool) (above : List Segment) (text : List Char) : List Segment :=
  if file then Path.trimFront
    (Path.follow file above (Path.segmentsOf special (cut endsPath text).1))
  else Path.follow file above (Path.segmentsOf special (cut endsPath text).1)

theorem follow_eq (url : Url) (above : List Segment) (text : List Char) :
    follow url above text = withTail
      { url with path := .rooted (followed (isFile url.scheme) (isSpecial url.scheme) above text) }
      (cut endsPath text).2 :=
  rfl

theorem path_follow (url : Url) (above : List Segment) (text : List Char) :
    (follow url above text).path =
      .rooted (followed (isFile url.scheme) (isSpecial url.scheme) above text) := by
  rw [follow_eq, path_withTail]

theorem segmentsOf_slash (special : Bool) (text : List Char) :
    Path.segmentsOf special ('/' :: text) = [] :: Path.segmentsOf special text := by
  rw [segmentsOf_eq_map, segmentsOf_eq_map, parts_cons_of_separates rfl]
  rfl

/-- A slash where a path begins is an empty segment. -/
theorem Path.follow_nil_cons (file : Bool) (above : List Segment) (first : Segment)
    (more : List Segment) :
    Path.follow file above ([] :: first :: more) =
      Path.follow file ([] :: above) (first :: more) := by
  rw [Path.follow]
  · show Path.follow _ (Path.settle _ above [] :: above) _ = _
    rw [Path.settle_nil]
  · exact List.cons_ne_nil _ _

theorem followed_slash (file special : Bool) (above : List Segment) (text : List Char) :
    followed file special above ('/' :: text) = followed file special ([] :: above) text := by
  have hcut : cut endsPath ('/' :: text) = ('/' :: (cut endsPath text).1, (cut endsPath text).2) :=
    rfl
  obtain ⟨first, more, hsegments⟩ : ∃ first more,
      Path.segmentsOf special (cut endsPath text).1 = first :: more := ⟨_, _, rfl⟩
  rw [followed, followed, hcut, segmentsOf_slash, hsegments, Path.follow_nil_cons]

theorem follow_slash (url : Url) (above : List Segment) (text : List Char) :
    follow url above ('/' :: text) = follow url ([] :: above) text := by
  rw [follow_eq, followed_slash]
  rfl

theorem text_segmentsOf {special : Bool} (h : special = true → '\\' ∉ text) :
    (Path.rooted (Path.segmentsOf special text)).text =
      '/' :: Percent.encode escapedInPath text := by
  have hencoded : special = true → '\\' ∉ Percent.encode escapedInPath text := by
    intro hspecial hmem
    rcases mem_encode hmem with ⟨htext, -⟩ | ⟨b, hb⟩
    · exact h hspecial htext
    · exact absurd (mem_escape hb) (by decide)
  show (parts (divides special) (Percent.encode escapedInPath text)).flatMap ('/' :: ·) = _
  rw [parts_divides hencoded, flatMap_parts]

/-- The names that the segments of a path stand for are the components of the decoded path. -/
theorem eq_parts_of_decodePath {segments names : List (List Char)}
    (hnames : List.Forall₂ (fun raw name => Percent.decodePath raw = .ok name) segments names)
    (hsegments : ∀ segment ∈ segments, '/' ∉ segment) (h : '/' :: text = names.flatMap ('/' :: ·)) :
    names = parts (divides false) text := by
  have hundivided : ∀ name ∈ names, '/' ∉ name := by
    clear h
    induction hnames with
    | nil => rintro name ⟨⟩
    | cons hname hnames ih =>
      obtain ⟨hsegment, hsegments⟩ := List.forall_mem_cons.mp hsegments
      exact List.forall_mem_cons.mpr
        ⟨Percent.slash_notMem_of_decodePath hname hsegment, ih hsegments⟩
  have hparts : ∀ part ∈ parts (divides false) text, '/' ∉ part := by
    intro part hpart hslash
    cases (mem_of_mem_parts hpart hslash).1
  have hsplit := splitOn_flatMap hparts
  rw [flatMap_parts, h, splitOn_flatMap hundivided] at hsplit
  exact (List.cons.inj hsplit).2

/-- What is decoded to itself is so in each of its components. -/
theorem decodePath_of_mem_parts (h : Percent.decodePath name = .ok name) :
    ∀ part ∈ parts (divides false) name, Percent.decodePath part = .ok part := by
  have hwhole : Percent.decodePath ((parts (divides false) name).flatMap ('/' :: ·)) =
      .ok ('/' :: name) := by
    rw [flatMap_parts]
    exact Percent.decodePath_cons_slash.mpr ⟨name, rfl, h⟩
  obtain ⟨names, hnames, hout⟩ := Percent.decodePath_flatMap.mp hwhole
  obtain rfl := eq_parts_of_decodePath hnames (fun part hpart hslash => by
    cases (mem_of_mem_parts hpart hslash).1) hout
  exact List.forall₂_same.mp hnames

/-! What is behind a place where a path begins. -/

/-- Only empty segments are above a place where a path begins, and none at all outside of files. -/
structure IsStart (file : Bool) (place : List Segment) : Prop where
  empty : ∀ segment ∈ place, segment = []
  notFile : file = false → place = []

theorem IsStart.cons_nil (h : IsStart true place) : IsStart true ([] :: place) :=
  ⟨List.forall_mem_cons.mpr ⟨rfl, h.empty⟩, by rintro ⟨⟩⟩

theorem IsStart.dropWhile_append (h : IsStart file place) (segments : List Segment) :
    (place.reverse ++ segments).dropWhile List.isEmpty = segments.dropWhile List.isEmpty := by
  rw [List.dropWhile_append_of_pos]
  intro segment hsegment
  rw [h.empty segment (List.mem_reverse.mp hsegment)]
  rfl

theorem IsStart.trimmedWeight (h : IsStart file place) : Path.trimmedWeight place.reverse = 0 := by
  have hdrop := h.dropWhile_append []
  rw [List.append_nil] at hdrop
  rw [Path.trimmedWeight, hdrop]
  rfl

theorem Path.trimFront_cases (segments : List Segment) :
    trimFront segments = [[]] ∧ segments.dropWhile List.isEmpty = [] ∨
      trimFront segments = segments.dropWhile List.isEmpty ∧
        segments.dropWhile List.isEmpty ≠ [] := by
  rw [trimFront]
  split
  · rename_i hnil
    exact .inl ⟨rfl, hnil⟩
  · rename_i hne
    exact .inr ⟨rfl, hne⟩

/-- Segments that are followed to a path weigh as much as the path, and more if dots are among
them. -/
theorem IsStart.le_weight (h : IsStart file place) (hne : text ≠ [])
    (hout : Percent.decodePath (Path.rooted (if file then Path.trimFront
      (Path.follow file place segments) else Path.follow file place segments)).text =
        .ok ('/' :: text)) :
    1 + Utf8.size text ≤ Path.weight segments ∧ ∀ segment ∈ segments,
      Path.isDots segment = true → 1 + Utf8.size text < Path.weight segments := by
  have hscan := congrArg List.length (Percent.decodePath_eq_ok_iff.mp hout)
  have hsize : (Utf8.encode ('/' :: text)).length = 1 + Utf8.size text :=
    Utf8.size_cons_of_lt (by decide)
  rw [Path.length_scan_text, hsize] at hscan
  cases file with
  | false =>
    obtain rfl := h.notFile rfl
    have hfollow := Path.isMeasure_weight.follow_le false [] segments
    have hnone : Path.weight [].reverse = 0 := rfl
    rw [if_neg Bool.false_ne_true] at hscan
    rwa [hscan, hnone, Nat.zero_add] at hfollow
  | true =>
    have hfollow := Path.isMeasure_trimmedWeight.follow_le true place segments
    rw [if_pos rfl] at hout hscan
    rcases Path.trimFront_cases (Path.follow true place segments) with ⟨hroot, -⟩ | ⟨hkept, -⟩
    -- Where only empty segments were followed, the path is the root.
    · have hslash : Percent.decodePath (Path.rooted [[]]).text = .ok ['/'] :=
        Percent.decodePath_of_no_percent (by decide)
      rw [hroot, hslash] at hout
      exact absurd (List.cons.inj (Except.ok.inj hout)).2.symm hne
    · rw [hkept] at hscan
      rwa [Path.trimmedWeight, hscan, h.trimmedWeight, Nat.zero_add] at hfollow

theorem Path.settle_cases (file : Bool) (place : List Segment) (segment : Segment) :
    settle file place segment = segment ∨ file = true ∧ place = [] ∧
      ∃ c, isAlpha c = true ∧ segment = [c, '|'] ∧ settle file place segment = [c, ':'] := by
  rw [settle.eq_def]
  split
  · rename_i c
    split_ifs with hc
    · exact .inr ⟨rfl, rfl, c, hc, rfl, rfl⟩
    · exact .inl rfl
  · exact .inl rfl

/-- Segments without dots are followed to themselves, but for a drive letter. -/
theorem IsStart.followed_of_names (h : IsStart file place) (htext : Unmarked text)
    (hsegments : Path.segmentsOf special text = first :: more)
    (hdots : ∀ segment ∈ first :: more, Path.isDots segment = false)
    (hgap : file = true → first ≠ [] ∨ more = []) :
    followed file special place text = Path.settle file place first :: more := by
  have hlast : ¬(Path.isDoubleDot ((first :: more).getLast (List.cons_ne_nil _ _)) = true ∨
      Path.isDot ((first :: more).getLast (List.cons_ne_nil _ _)) = true) := by
    rw [← Bool.or_eq_true]
    exact Bool.eq_false_iff.mp (hdots _ (List.getLast_mem _))
  have hfollow : Path.follow file place (first :: more) =
      place.reverse ++ Path.settle file place first :: more := by
    rw [Path.follow_eq_foldl file place (List.cons_ne_nil _ _), if_neg hlast, List.append_nil,
      Path.foldl_enter_of_names hdots, List.reverse_append, List.reverse_reverse,
      List.reverse_cons, List.append_assoc]
    rfl
  rw [followed, cut_of_unmarked htext]
  dsimp only
  rw [hsegments, hfollow]
  cases file with
  | false =>
    obtain rfl := h.notFile rfl
    rfl
  | true =>
    rw [if_pos rfl, Path.trimFront, h.dropWhile_append]
    by_cases hnil : first = []
    · obtain rfl := (hgap rfl).resolve_left fun hne => hne hnil
      rw [hnil, Path.settle_nil]
      rfl
    · have hsettle : (Path.settle true place first).isEmpty = false := by
        rw [List.isEmpty_eq_false_iff]
        rcases Path.settle_cases true place first with hsame | ⟨-, -, c, -, -, hdrive⟩
        · rwa [hsame]
        · rw [hdrive]
          exact List.cons_ne_nil _ _
      rw [List.dropWhile_cons, hsettle]
      rfl

/-! Texts that are kept. -/

theorem mem_segmentsOf_iff (h : special = true → '\\' ∉ text) :
    segment ∈ Path.segmentsOf special text ↔
      ∃ part ∈ text.splitOn '/', Percent.encode escapedInPath part = segment := by
  rw [segmentsOf_eq_map, parts_divides h, parts_eq_splitOn, List.mem_map]

/-- No component of a text that is decoded to itself goes by dots, unless it is dots. -/
theorem noDots_iff (hundivided : special = true → '\\' ∉ text)
    (hdecoded : Percent.decodePath text = .ok text) :
    (∀ segment ∈ Path.segmentsOf special text, Path.isDots segment = false) ↔
      ['.'] ∉ text.splitOn '/' ∧ ['.', '.'] ∉ text.splitOn '/' := by
  constructor
  · intro h
    have hnone {part : List Char} (hpart : part ∈ text.splitOn '/') :
        Path.isDots (Percent.encode escapedInPath part) = false :=
      h _ ((mem_segmentsOf_iff hundivided).mpr ⟨part, hpart, rfl⟩)
    constructor
    · intro hdot
      cases hnone hdot
    · intro hdouble
      cases hnone hdouble
  · rintro hdots segment hsegment
    obtain ⟨part, hpart, rfl⟩ := (mem_segmentsOf_iff hundivided).mp hsegment
    by_contra hpartDots
    have hsame := decodePath_of_mem_parts hdecoded part (by rwa [parts_eq_splitOn])
    have hscan := Path.scan_of_isDots (Bool.eq_true_of_not_eq_false hpartDots)
    rw [Percent.scan_encode keepsEscapes_escapedInPath, ← Percent.decodePath_eq_ok_iff,
      ← Percent.decodePath_eq_ok_iff, hsame] at hscan
    rcases hscan with hdot | hdouble
    · exact hdots.1 (Except.ok.inj hdot ▸ hpart)
    · exact hdots.2 (Except.ok.inj hdouble ▸ hpart)

/-- The segments of a text that no backslash divides stand for what the text stands for. -/
theorem decodePath_segmentsOf (h : special = true → '\\' ∉ text) :
    Percent.decodePath (Path.rooted (Path.segmentsOf special text)).text = .ok ('/' :: text) ↔
      Percent.decodePath text = .ok text := by
  rw [Percent.decodePath_eq_ok_iff, text_segmentsOf h, Percent.scan_cons (by decide),
    Percent.scan_encode keepsEscapes_escapedInPath, Percent.decodePath_eq_ok_iff, Utf8.encode_cons,
    List.append_right_inj]

/-- A text that is followed to a path as it is: nothing of it ends the path, divides it, goes by
dots, is decoded to something else, or is dropped or mended at the front of a file. -/
structure Followable (file special : Bool) (place : List Segment) (text : List Char) : Prop where
  unmarked : '?' ∉ text ∧ '#' ∉ text
  undivided : special = true → '\\' ∉ text
  noDots : ['.'] ∉ text.splitOn '/' ∧ ['.', '.'] ∉ text.splitOn '/'
  decoded : Percent.decodePath text = .ok text
  noGap : file = true → text.head? ≠ some '/'
  noDrive : file = true → place = [] →
    ∀ c, isAlpha c = true → (text.splitOn '/').head? ≠ some [c, '|']

theorem encode_drive {c d : Char} (hc : isAlpha c = true) (hd : d = ':' ∨ d = '|') :
    Percent.encode escapedInPath [c, d] = [c, d] := by
  apply encode_eq_self
  intro e he
  rcases List.mem_cons.mp he with rfl | he
  · simp only [isAlpha, Bool.or_eq_true, Bool.and_eq_true, decide_eq_true_eq] at hc
    refine ⟨by omega, ?_⟩
    by_contra hescaped
    simp only [escapedInPath, escapedInQuery, isControl, List.contains_iff_mem, List.mem_cons,
      List.not_mem_nil, Bool.not_eq_false, Bool.or_eq_true, decide_eq_true_eq, or_false] at hescaped
    rcases hescaped with ((hcontrol | hdel) | rfl | rfl | rfl | rfl | rfl) | rfl | rfl | rfl | rfl
    · omega
    · omega
    all_goals revert hc; decide
  · rw [List.mem_singleton.mp he]
    rcases hd with rfl | rfl <;> decide

/-- The first segment of a text, by its first component. -/
theorem segmentsOf_eq_cons (h : special = true → '\\' ∉ text) : ∃ part rest,
    text.splitOn '/' = part :: rest ∧
      Path.segmentsOf special text =
        Percent.encode escapedInPath part :: rest.map (Percent.encode escapedInPath) := by
  rw [segmentsOf_eq_map, parts_divides h, ← parts_eq_splitOn]
  exact ⟨_, _, rfl, rfl⟩

/-- A segment that does not stay is a drive letter in a form that does not last. -/
theorem settle_encode_eq_iff {part : List Char} (hpart : Percent.decodePath part = .ok part) :
    Path.settle file place (Percent.encode escapedInPath part) =
        Percent.encode escapedInPath part ↔
      (file = true → place = [] → ∀ c, isAlpha c = true → part ≠ [c, '|']) := by
  constructor
  · rintro hsettle rfl rfl c hc rfl
    rw [encode_drive hc (.inr rfl), Path.settle, if_pos hc] at hsettle
    cases hsettle
  · intro h
    rcases Path.settle_cases file place (Percent.encode escapedInPath part) with
      hsame | ⟨hfile, hnil, c, hc, hdrive, -⟩
    · exact hsame
    · have hsame : Percent.decodePath [c, '|'] = .ok [c, '|'] := by
        apply Percent.decodePath_of_no_percent
        have hpercent : '%' ≠ c := by
          rintro rfl
          cases hc
        simp [hpercent]
      rw [← hdrive, Percent.decodePath_eq_ok_iff, Percent.scan_encode keepsEscapes_escapedInPath,
        ← Percent.decodePath_eq_ok_iff, hpart] at hsame
      exact absurd (hdrive ▸ Except.ok.inj hsame) (h hfile hnil c hc)

/-- A component that is found again was not changed where it was entered. -/
theorem settle_of_decodePath {part : List Char} (h : Percent.decodePath
      (Path.settle file place (Percent.encode escapedInPath part)) = .ok part) :
    Path.settle file place (Percent.encode escapedInPath part) =
      Percent.encode escapedInPath part := by
  rcases Path.settle_cases file place (Percent.encode escapedInPath part) with
    hsame | ⟨-, -, c, hc, hdrive, hsettle⟩
  · exact hsame
  · have hpercent : '%' ≠ c := by
      rintro rfl
      cases hc
    have hcolon : Percent.decodePath [c, ':'] = .ok [c, ':'] :=
      Percent.decodePath_of_no_percent (by simp [hpercent])
    rw [hsettle, hcolon] at h
    rw [← Except.ok.inj h, encode_drive hc (.inl rfl)] at hdrive
    cases hdrive

/-- What is read as a path that has all of a text in it was all of the text, no part of which was
lost on the way. -/
theorem IsStart.lossless (h : IsStart file place) (hsub : route.Sublist text)
    (hout : Percent.decodePath (Path.rooted (followed file special place route)).text =
      .ok ('/' :: text)) :
    route = text ∧ Unmarked text ∧
      ∀ first more, Path.segmentsOf special text = first :: more →
        (∀ segment ∈ first :: more, Path.isDots segment = false) ∧
          (file = true → first ≠ [] ∨ more = []) := by
  by_cases hne : text = []
  · subst hne
    refine ⟨List.sublist_nil.mp hsub, unmarked_nil, ?_⟩
    rintro _ _ ⟨⟩
    exact ⟨by decide, fun _ => .inr rfl⟩
  -- The path is as large as the text.
  have hcut : (cut endsPath route).1.Sublist route := List.takeWhile_sublist _
  obtain ⟨hle, heq⟩ := Utf8.size_le_of_sublist (hcut.trans hsub)
  obtain ⟨hweight, hlight⟩ := h.le_weight hne hout
  have hsegments := Path.weight_segmentsOf_le special (cut endsPath route).1
  have hwhole : (cut endsPath route).1 = text := heq (by omega)
  obtain rfl : route = text := hsub.antisymm (hwhole ▸ hcut)
  rw [hwhole] at hweight hlight hsegments
  refine ⟨rfl, ?_, fun first more hfirst => ⟨?_, ?_⟩⟩
  · intro c hc
    rw [← hwhole] at hc
    have hkept := List.mem_takeWhile_imp hc
    rwa [Bool.not_eq_true'] at hkept
  · intro segment hsegment
    by_contra hdots
    have hlt := hlight segment (hfirst ▸ hsegment) (Bool.eq_true_of_not_eq_false hdots)
    omega
  · rintro rfl
    by_contra hgap
    simp only [not_or, ne_eq, not_not] at hgap
    obtain ⟨rfl, hmore⟩ := hgap
    obtain ⟨next, rest, rfl⟩ := List.exists_cons_of_ne_nil hmore
    -- The slash of an empty segment at the front of a file would be missing.
    rw [followed, hwhole, hfirst, Path.follow_nil_cons] at hout
    have hlost := (h.cons_nil.le_weight hne hout).1
    rw [hfirst, Path.weight_cons] at hsegments
    omega

theorem slash_notMem_settle (h : '/' ∉ segment) : '/' ∉ Path.settle file place segment := by
  rcases Path.settle_cases file place segment with hsame | ⟨-, -, c, hc, -, hdrive⟩
  · rwa [hsame]
  · rw [hdrive]
    intro hmem
    rcases List.mem_cons.mp hmem with rfl | hmem
    · cases hc
    · cases List.mem_singleton.mp hmem

/-- A text is read as itself only if it is followed as it is. -/
theorem IsStart.followable (h : IsStart file place) (hsub : route.Sublist text)
    (hout : Percent.decodePath (Path.rooted (followed file special place route)).text =
      .ok ('/' :: text)) : route = text ∧ Followable file special place text := by
  obtain ⟨rfl, hmarks, hsegments⟩ := h.lossless hsub hout
  obtain ⟨first, more, hfirst⟩ : ∃ first more, Path.segmentsOf special route = first :: more :=
    ⟨_, _, rfl⟩
  obtain ⟨hdots, hgap⟩ := hsegments first more hfirst
  rw [h.followed_of_names hmarks hfirst hdots hgap] at hout
  -- The components of the path are those of the text, and there are as many segments.
  obtain ⟨names, hnames, htext⟩ := Percent.decodePath_flatMap.mp hout
  have hfree : ∀ segment ∈ first :: more, '/' ∉ segment := fun segment hsegment =>
    (Path.of_mem_segmentsOf (hfirst ▸ hsegment)).2
  obtain rfl := eq_parts_of_decodePath hnames (List.forall_mem_cons.mpr
    ⟨slash_notMem_settle (hfree first List.mem_cons_self), (List.forall_mem_cons.mp hfree).2⟩) htext
  have hundivided : special = true → '\\' ∉ route := by
    rintro rfl hmem
    have hlength := hnames.length_eq
    have hcount := congrArg List.length hfirst
    have hlt := lt_length_parts hmem
    rw [segmentsOf_eq_map, List.length_map] at hcount
    rw [List.length_cons] at hlength hcount
    omega
  obtain ⟨part, rest, hsplit, hencoded⟩ := segmentsOf_eq_cons hundivided
  rw [hfirst] at hencoded
  obtain ⟨rfl, rfl⟩ := List.cons.inj hencoded
  rw [parts_eq_splitOn, hsplit] at hnames
  have hsettle := settle_of_decodePath (List.forall₂_cons.mp hnames).1
  rw [hsettle, ← hfirst, decodePath_segmentsOf hundivided] at hout
  have hpart := decodePath_of_mem_parts hout part
    (by rw [parts_eq_splitOn, hsplit]; exact List.mem_cons_self)
  refine ⟨rfl, unmarked_iff.mpr hmarks, hundivided, ?_, hout, ?_, ?_⟩
  · rw [← noDots_iff hundivided hout, hfirst]
    exact hdots
  · rintro hfile hhead
    obtain ⟨tail, rfl⟩ := List.head?_eq_some_iff.mp hhead
    rw [segmentsOf_slash] at hfirst
    obtain ⟨hnil, hmore⟩ := List.cons.inj hfirst
    rcases hgap hfile with hne | hnone
    · exact hne hnil.symm
    · rw [hnone] at hmore
      cases hmore
  · intro hfile hplace c hc hdrive
    rw [hsplit] at hdrive
    exact (settle_encode_eq_iff hpart).mp hsettle hfile hplace c hc (Option.some.inj hdrive)

/-- And a text that is followed as it is, is read as itself. -/
theorem Followable.decodePath (h : Followable file special place text)
    (hplace : IsStart file place) :
    Percent.decodePath (Path.rooted (followed file special place text)).text =
      .ok ('/' :: text) := by
  obtain ⟨part, rest, hsplit, hencoded⟩ := segmentsOf_eq_cons h.undivided
  have hdots := (noDots_iff h.undivided h.decoded).mpr h.noDots
  have hpart := decodePath_of_mem_parts h.decoded part
    (by rw [parts_eq_splitOn, hsplit]; exact List.mem_cons_self)
  have hgap : file = true → Percent.encode escapedInPath part ≠ [] ∨
      rest.map (Percent.encode escapedInPath) = [] := by
    intro hfile
    cases text with
    | nil =>
      obtain ⟨-, rfl⟩ := List.cons.inj hsplit
      exact .inr rfl
    | cons c text =>
      have hc : divides false c = false := by
        rw [divides_false, decide_eq_false_iff_not]
        exact fun hc => h.noGap hfile (congrArg some hc)
      obtain ⟨first, more, -, hparts⟩ := parts_cons_of_not hc text
      rw [parts_eq_splitOn, hsplit] at hparts
      obtain ⟨rfl, -⟩ := List.cons.inj hparts
      obtain ⟨d, tail, hencode, -⟩ := exists_encode_cons escapedInPath c first
      rw [hencode]
      exact .inl (List.cons_ne_nil _ _)
  have hsettle : Path.settle file place (Percent.encode escapedInPath part) =
      Percent.encode escapedInPath part := by
    rw [settle_encode_eq_iff hpart]
    rintro hfile hnil c hc rfl
    exact h.noDrive hfile hnil c hc (by rw [hsplit]; rfl)
  rw [hplace.followed_of_names (unmarked_iff.mp h.unmarked) hencoded (hencoded ▸ hdots) hgap,
    hsettle, ← hencoded, decodePath_segmentsOf h.undivided]
  exact h.decoded

end Followed

end Url

end MetaFs
