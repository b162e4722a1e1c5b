import Mathlib
import MetaFs.Proofs.FollowedPaths
import MetaFs.Proofs.UrlPorts
/-! The path of a user's home, which is read off a URI with the user's name in it. -/

namespace MetaFs

namespace Url

section Homes

variable {scheme text rest name : List Char}

/-! Each kind of scheme leads to a path in its own way. -/

theorem readAuthority_empty (h : isSpecial scheme = false) (text : List Char) :
    readAuthority scheme ('/' :: text) =
      .ok (follow ⟨scheme, some {}, .rooted [], none, none⟩ [] text) := by
  have hfollow : followAuthority ⟨scheme, some {}, .rooted [], none, none⟩ ('/' :: text) =
      follow ⟨scheme, some {}, .rooted [], none, none⟩ [] text := by
    rw [followAuthority]
    simp [h]
  rw [readAuthority, h]
  exact congrArg Except.ok hfollow

def userHost : List Char := ['u', 's', 'e', 'r']

/-- Behind a scheme of the web the first name of the path is the host. -/
theorem readAuthority_user (h : isSpecial scheme = true) (text : List Char) :
    readAuthority scheme (userHost ++ '/' :: text) =
      .ok (follow ⟨scheme, some { host := userHost }, .rooted [], none, none⟩ [] text) := by
  have hfollow : followAuthority
        ⟨scheme, some { host := userHost }, .rooted [], none, none⟩ ('/' :: text) =
      follow ⟨scheme, some { host := userHost }, .rooted [], none, none⟩ [] text := by
    rw [followAuthority]
    simp [h, isSlash]
  have hinfo : splitUserInfo true (userHost ++ '/' :: text) = .ok ({}, userHost ++ '/' :: text) :=
    rfl
  have hsplit : splitHost true false (userHost ++ '/' :: text) = (userHost, '/' :: text) := rfl
  have hhost : Host.ofDomain userHost = .ok userHost := by decide +kernel
  rw [readAuthority, h]
  simp only [hinfo, hsplit, bind, Except.bind, if_true]
  have hempty : ¬userHost.isEmpty = true := by decide
  rw [if_neg hempty, hhost]
  exact congrArg Except.ok hfollow

theorem readFileHost_empty (text : List Char) :
    readFileHost ('/' :: text) = .ok (follow (fileUrl []) [[]] text) := by
  rw [← follow_slash]
  rfl

/-- Where the path of a home is followed from. A file URL has read its first slash by then. -/
def homePlace (scheme : List Char) : List Segment :=
  if isFile scheme then [[]] else []

/-- What is followed from there. -/
def homeRoute (scheme name : List Char) : List Char :=
  if isWeb scheme then name ++ ['/'] else userHost ++ '/' :: (name ++ ['/'])

/-- The text of a home is followed to a path. -/
theorem parse_home {user : List Char} {text : String} (h : ReadScheme scheme)
    (htext : text.toList =
      scheme ++ ':' :: '/' :: '/' :: '/' :: (userHost ++ '/' :: (user ++ ['/']))) :
    ∃ base, base.scheme = scheme ∧ parse none text =
      .ok (follow base (homePlace scheme) (homeRoute scheme (user.filter isKept))) := by
  have hparse : parse none text = readScheme none scheme
      ('/' :: '/' :: '/' :: (userHost ++ '/' :: (user.filter isKept ++ ['/']))) := by
    have hends : text.toList =
        scheme ++ ':' :: ('/' :: '/' :: '/' :: (userHost ++ '/' :: user)) ++ ['/'] := by
      rw [htext]
      simp
    rw [h.parse_eq (by decide) none hends]
    have hkept : ('/' :: '/' :: '/' :: (userHost ++ '/' :: user)).filter isKept =
        '/' :: '/' :: '/' :: (userHost ++ '/' :: user.filter isKept) := rfl
    rw [hkept]
    simp [visible]
  rw [hparse, readScheme.eq_def, homePlace, homeRoute]
  by_cases hfile : isFile scheme = true
  · have hscheme : scheme = fileScheme := of_decide_eq_true hfile
    subst hscheme
    exact ⟨fileUrl [], rfl, readFileHost_empty _⟩
  rw [if_neg hfile, if_neg hfile]
  by_cases hweb : isWeb scheme = true
  · have hspecial : isSpecial scheme = true := by rw [isSpecial, hweb, Bool.true_or]
    rw [if_pos hweb, if_pos hweb]
    exact ⟨_, rfl, readAuthority_user hspecial _⟩
  · have hspecial : isSpecial scheme = false := by
      rw [isSpecial, Bool.eq_false_of_not_eq_true hweb, Bool.eq_false_of_not_eq_true hfile]
      rfl
    rw [if_neg hweb, if_neg hweb]
    exact ⟨_, rfl, readAuthority_empty hspecial _⟩

/-! The path of the directory that is reached. -/

section Directories

variable {file special : Bool} {above segments : List Segment}

/-- The path of a directory has one more slash, and is no heavier than that. -/
theorem exists_slashed (file : Bool) (segments : List Segment)
    (h : file = true → ∃ longer, segments = Path.trimFront longer) :
    ∃ all, slashed file (.rooted segments) = .rooted all ∧
      Path.trimmedWeight all ≤ Path.trimmedWeight segments + 1 ∧
      (segments.getLast? = some [] → all = segments) := by
  rw [slashed]
  by_cases hlast : segments.getLast? = some []
  · rw [if_pos hlast]
    exact ⟨segments, rfl, Nat.le_succ _, fun _ => rfl⟩
  rw [if_neg hlast]
  have hend : Path.weight [[]] = 1 := rfl
  cases file with
  | false =>
    refine ⟨segments ++ [[]], rfl, ?_, fun h => absurd h hlast⟩
    exact Path.trimmedWeight_append_le segments [[]]
  | true =>
    refine ⟨Path.trimFront (Path.follow true [] (segments ++ [[]])), rfl, ?_,
      fun h => absurd h hlast⟩
    have hweight : Path.weight segments = Path.trimmedWeight segments := by
      obtain ⟨longer, rfl⟩ := h rfl
      rw [Path.trimFront] at hlast ⊢
      split at hlast
      · exact absurd rfl hlast
      · rw [Path.trimmedWeight, List.dropWhile_idempotent]
    calc Path.trimmedWeight (Path.trimFront (Path.follow true [] (segments ++ [[]])))
        ≤ Path.trimmedWeight (Path.follow true [] (segments ++ [[]])) :=
          Path.trimmedWeight_trimFront_le _
      _ ≤ Path.trimmedWeight [] + Path.weight (segments ++ [[]]) :=
          (Path.isMeasure_trimmedWeight.follow_le true [] _).1
      _ = Path.weight segments + 1 := by rw [Path.weight_append, hend]; exact Nat.zero_add _
      _ = Path.trimmedWeight segments + 1 := by rw [hweight]

theorem trimmedWeight_followed_le (file special : Bool) (above : List Segment)
    (text : List Char) :
    Path.trimmedWeight (followed file special above text) ≤ Path.trimmedWeight above.reverse +
      Path.weight (Path.segmentsOf special (cut endsPath text).1) := by
  rw [followed]
  split_ifs
  · exact (Path.trimmedWeight_trimFront_le _).trans
      (Path.isMeasure_trimmedWeight.follow_le _ _ _).1
  · exact (Path.isMeasure_trimmedWeight.follow_le _ _ _).1

theorem path_directory (base : Url) (above : List Segment) (text : List Char) :
    (follow base above text).asDirectory.path = slashed (isFile base.scheme)
      (.rooted (followed (isFile base.scheme) (isSpecial base.scheme) above text)) := by
  have hscheme := (frame_follow base above text).1
  rw [asDirectory, hscheme, follow, path_withTail]
  rfl

theorem segmentsOf_concat_slash (special : Bool) (text : List Char) :
    Path.segmentsOf special (text ++ ['/']) = Path.segmentsOf special text ++ [[]] := by
  rw [segmentsOf_eq_map, segmentsOf_eq_map, parts_append_parts rfl, List.map_append]
  rfl

theorem unmarked_slash : Unmarked ['/'] :=
  unmarked_cons.mpr ⟨rfl, unmarked_nil⟩

/-- A text with a slash at its end is followed to a directory. -/
theorem followed_concat_slash (h : Unmarked text) :
    followed file special above (text ++ ['/']) =
      (if file then Path.trimFront else id)
        (((Path.segmentsOf special text).foldl (Path.enter file) above).reverse ++ [[]]) := by
  rw [followed, cut_of_unmarked (unmarked_append.mpr ⟨h, unmarked_slash⟩)]
  dsimp only
  rw [segmentsOf_concat_slash, Path.follow_concat_nil]
  split_ifs <;> rfl

theorem getLast?_followed_concat_slash (h : Unmarked text) :
    (followed file special above (text ++ ['/'])).getLast? = some [] := by
  rw [followed_concat_slash h]
  split_ifs
  · exact Path.getLast?_trimFront List.getLast?_concat
  · exact List.getLast?_concat

end Directories

/-! Which names a home keeps. -/

/-- The path of a home. -/
def homePath (name : List Char) : List Char :=
  '/' :: (userHost ++ '/' :: (name ++ ['/']))

/-- The directory that a home is followed to. -/
def homeDirectory (base : Url) (name : List Char) : Url :=
  (follow base (homePlace base.scheme) (homeRoute base.scheme (name.filter isKept))).asDirectory

/-- A name that a URI holds as it is: nothing of it is dropped, taken for something else or decoded
to something else. -/
structure Unchanged (scheme name : List Char) : Prop where
  notWeb : isWeb scheme = false
  oneLine : '\t' ∉ name ∧ '\n' ∉ name ∧ '\r' ∉ name
  unmarked : '?' ∉ name ∧ '#' ∉ name
  undivided : isFile scheme = true → '\\' ∉ name
  noDots : ['.'] ∉ name.splitOn '/' ∧ ['.', '.'] ∉ name.splitOn '/'
  decoded : Percent.decodePath name = .ok name

variable {base : Url}

theorem unmarked_user : Unmarked (userHost ++ '/' :: name) ↔ Unmarked name := by
  have huser : Unmarked userHost := by
    intro c hc
    simp only [userHost, List.mem_cons, List.not_mem_nil, or_false] at hc
    rcases hc with rfl | rfl | rfl | rfl <;> rfl
  rw [unmarked_append, unmarked_cons]
  exact ⟨fun h => h.2.2, fun h => ⟨huser, rfl, h⟩⟩

/-- A path that is decoded to a home weighs as much as the home. -/
theorem trimmedWeight_home {segments : List Segment}
    (h : Percent.decodePath (Path.rooted segments).text = .ok (homePath name)) :
    Path.trimmedWeight segments = 7 + Utf8.size name := by
  have hscan := Percent.decodePath_eq_ok_iff.mp h
  have hslash (text : List Char) : Percent.scan ('/' :: text) = 47 :: Percent.scan text :=
    Percent.scan_cons (by decide)
  -- The home begins with a name that is not empty, and so do the segments.
  have htrimmed : segments.dropWhile List.isEmpty = segments := by
    cases segments with
    | nil => rfl
    | cons first segments =>
      cases first with
      | cons c first => rfl
      | nil =>
        have htext : (Path.rooted ([] :: segments)).text = '/' :: (Path.rooted segments).text := rfl
        rw [htext, hslash] at hscan
        cases segments with
        | nil => cases hscan
        | cons next segments =>
          have hnext : (Path.rooted (next :: segments)).text =
              '/' :: (next ++ (Path.rooted segments).text) := rfl
          rw [hnext, hslash] at hscan
          cases hscan
  have hsize : Utf8.size (homePath name) = 7 + Utf8.size name := by
    rw [homePath, Utf8.size_cons_of_lt (by decide), Utf8.size_append,
      Utf8.size_cons_of_lt (by decide), Utf8.size_append]
    have huser : Utf8.size userHost = 4 := rfl
    have hend : Utf8.size ['/'] = 1 := rfl
    omega
  rw [Path.trimmedWeight, htrimmed, ← Path.length_scan_text, hscan, ← hsize]
  rfl

theorem trimmedWeight_homePlace (scheme : List Char) :
    Path.trimmedWeight (homePlace scheme).reverse = 0 := by
  rw [homePlace]
  split_ifs <;> rfl

/-- The path of a home, and how much it weighs at most. -/
theorem exists_path_home (base : Url) (text : List Char) : ∃ segments,
    (follow base (homePlace base.scheme) text).asDirectory.path = .rooted segments ∧
      Path.trimmedWeight segments ≤
        Path.weight (Path.segmentsOf (isSpecial base.scheme) (cut endsPath text).1) + 1 := by
  obtain ⟨all, hslashed, hweight, -⟩ := exists_slashed (isFile base.scheme)
    (followed (isFile base.scheme) (isSpecial base.scheme) (homePlace base.scheme) text)
    fun hfile => ⟨_, by rw [followed, if_pos hfile]⟩
  have hfollowed := trimmedWeight_followed_le (isFile base.scheme) (isSpecial base.scheme)
    (homePlace base.scheme) text
  rw [trimmedWeight_homePlace] at hfollowed
  exact ⟨all, (path_directory _ _ _).trans hslashed, by omega⟩

/-- What leads to a home is no smaller than the home, whatever it is that follows it. -/
theorem size_le_of_home (hout : Percent.decodePath
      (follow base (homePlace base.scheme) text).asDirectory.path.text = .ok (homePath name)) :
    5 + Utf8.size name ≤ Utf8.size (cut endsPath text).1 := by
  obtain ⟨segments, hpath, hweight⟩ := exists_path_home base text
  rw [hpath] at hout
  have hle : 7 + Utf8.size name ≤ 2 + Utf8.size (cut endsPath text).1 := calc
    7 + Utf8.size name = Path.trimmedWeight segments := (trimmedWeight_home hout).symm
    _ ≤ Path.weight (Path.segmentsOf (isSpecial base.scheme) (cut endsPath text).1) + 1 := hweight
    _ ≤ 1 + Utf8.size (cut endsPath text).1 + 1 :=
      Nat.add_le_add_right (Path.weight_segmentsOf_le _ _) 1
    _ = 2 + Utf8.size (cut endsPath text).1 := by omega
  omega

/-- What is cut off does not count for the size. -/
theorem size_cut_le {c : Char} (hc : endsPath c = true) (front back : List Char) :
    Utf8.size (cut endsPath (front ++ c :: back)).1 ≤ Utf8.size front := by
  have hdrop : (cut endsPath (front ++ c :: back)).2 =
      front.dropWhile (fun c => !endsPath c) ++ c :: back :=
    dropWhile_append_cons (by rw [hc]; rfl)
  have hwhole : (cut endsPath (front ++ c :: back)).1 ++ (cut endsPath (front ++ c :: back)).2 =
      front ++ c :: back := List.takeWhile_append_dropWhile
  have hsize := congrArg Utf8.size hwhole
  rw [hdrop, Utf8.size_append, Utf8.size_append, Utf8.size_append] at hsize
  omega

/-- A home behind a scheme of the web has lost its first name. -/
theorem notWeb_of_home
    (hout : Percent.decodePath (homeDirectory base name).path.text = .ok (homePath name)) :
    isWeb base.scheme = false := by
  by_contra hweb
  rw [homeDirectory, homeRoute, if_pos (Bool.eq_true_of_not_eq_false hweb)] at hout
  have hle : 5 + Utf8.size name ≤ Utf8.size name + 1 := calc
    5 + Utf8.size name ≤ Utf8.size (cut endsPath (name.filter isKept ++ ['/'])).1 :=
      size_le_of_home hout
    _ ≤ Utf8.size (name.filter isKept ++ ['/']) :=
      (Utf8.size_le_of_sublist (List.takeWhile_sublist _)).1
    _ = Utf8.size (name.filter isKept) + 1 := Utf8.size_append
    _ ≤ Utf8.size name + 1 := Nat.add_le_add_right (Utf8.size_le_of_sublist List.filter_sublist).1 1
  omega

theorem homeRoute_of_notWeb {scheme : List Char} (h : isWeb scheme = false) :
    homeRoute scheme name = (userHost ++ '/' :: name) ++ ['/'] := by
  rw [homeRoute, h, if_neg Bool.false_ne_true, List.append_assoc]
  rfl

theorem size_user : Utf8.size (userHost ++ '/' :: name) = 5 + Utf8.size name := by
  have huser : Utf8.size userHost = 4 := rfl
  rw [Utf8.size_append, Utf8.size_cons_of_lt (by decide)]
  omega

/-- A home behind a mark is not reached. -/
theorem unmarked_of_home (hweb : isWeb base.scheme = false)
    (hout : Percent.decodePath (homeDirectory base name).path.text = .ok (homePath name)) :
    Unmarked (name.filter isKept) := by
  by_contra hmarked
  rw [Unmarked] at hmarked
  push Not at hmarked
  obtain ⟨c, hmem, hc⟩ := hmarked
  rw [ne_eq, Bool.not_eq_false] at hc
  obtain ⟨front, back, hname⟩ := List.append_of_mem hmem
  rw [homeDirectory, hname] at hout
  have hroute : homeRoute base.scheme (front ++ c :: back) =
      (userHost ++ '/' :: front) ++ c :: (back ++ ['/']) := by
    rw [homeRoute_of_notWeb hweb]
    simp
  rw [hroute] at hout
  have hlost : 0 < Utf8.size (c :: back) := Nat.zero_lt_of_lt Utf8.lt_size_cons
  -- The mark itself is not in what is left of the name.
  have hlt : 5 + Utf8.size name < 5 + Utf8.size name := calc
    5 + Utf8.size name
      ≤ Utf8.size (cut endsPath ((userHost ++ '/' :: front) ++ c :: (back ++ ['/']))).1 :=
        size_le_of_home hout
    _ ≤ Utf8.size (userHost ++ '/' :: front) := size_cut_le hc _ _
    _ = 5 + Utf8.size front := size_user
    _ < 5 + (Utf8.size front + Utf8.size (c :: back)) := by omega
    _ = 5 + Utf8.size (name.filter isKept) := by rw [hname, Utf8.size_append]
    _ ≤ 5 + Utf8.size name := Nat.add_le_add_left (Utf8.size_le_of_sublist List.filter_sublist).1 5
  exact lt_irrefl _ hlt

theorem homePath_eq (name : List Char) :
    homePath name = '/' :: ((userHost ++ '/' :: name) ++ ['/']) := by
  rw [homePath, List.append_assoc]
  rfl

theorem isSpecial_of_notWeb {scheme : List Char} (h : isWeb scheme = false) :
    isSpecial scheme = isFile scheme := by
  rw [isSpecial, h, Bool.false_or]

theorem isStart_homePlace (scheme : List Char) : IsStart (isFile scheme) (homePlace scheme) := by
  rw [homePlace]
  constructor
  · split_ifs
    · exact List.forall_mem_singleton.mpr rfl
    · rintro segment ⟨⟩
  · intro hfile
    rw [if_neg (by rw [hfile]; exact Bool.false_ne_true)]

theorem decodePath_home : Percent.decodePath ((userHost ++ '/' :: name) ++ ['/']) =
    .ok ((userHost ++ '/' :: name) ++ ['/']) ↔ Percent.decodePath name = .ok name := by
  have hscan : Percent.scan ((userHost ++ '/' :: name) ++ ['/']) =
      Utf8.encode userHost ++ 47 :: (Percent.scan name ++ [47]) := by
    rw [List.append_assoc, List.cons_append, Percent.scan_append_slash, Percent.scan_append_slash]
    rfl
  have hencode : Utf8.encode ((userHost ++ '/' :: name) ++ ['/']) =
      Utf8.encode userHost ++ 47 :: (Utf8.encode name ++ [47]) := by
    rw [List.append_assoc, List.cons_append, Utf8.encode_append, Utf8.encode_cons,
      Utf8.encode_append]
    rfl
  rw [Percent.decodePath_eq_ok_iff, Percent.decodePath_eq_ok_iff, hscan, hencode]
  constructor
  · intro h
    exact List.append_cancel_right (List.cons.inj (List.append_cancel_left h)).2
  · intro h
    rw [h]

theorem splitOn_home : ((userHost ++ '/' :: name) ++ ['/']).splitOn '/' =
    userHost :: (name.splitOn '/' ++ [[]]) := by
  rw [← parts_eq_splitOn, ← parts_eq_splitOn, parts_append_parts rfl, parts_append_parts rfl]
  rfl

/-- A home is followed as it is exactly if its name is. -/
theorem followable_home_iff {scheme : List Char} (hweb : isWeb scheme = false) :
    Followable (isFile scheme) (isSpecial scheme) (homePlace scheme)
        ((userHost ++ '/' :: name) ++ ['/']) ∧ name.filter isKept = name ↔
      Unchanged scheme name := by
  have hmem {c : Char} (hc : c ∉ userHost ∧ c ≠ '/') :
      c ∉ (userHost ++ '/' :: name) ++ ['/'] ↔ c ∉ name := by
    simp [hc]
  have hdots {part : List Char} (huser : part ≠ userHost) (hnil : part ≠ []) :
      part ∉ ((userHost ++ '/' :: name) ++ ['/']).splitOn '/' ↔ part ∉ name.splitOn '/' := by
    rw [splitOn_home]
    simp [huser, hnil]
  constructor
  · rintro ⟨h, hkept⟩
    refine ⟨hweb, oneLine_iff.mpr hkept, ?_, ?_, ?_, decodePath_home.mp h.decoded⟩
    · rw [← hmem (by decide), ← hmem (by decide)]
      exact h.unmarked
    · intro hfile
      rw [← hmem (by decide)]
      exact h.undivided (by rw [isSpecial_of_notWeb hweb, hfile])
    · rw [← hdots (by decide) (by decide), ← hdots (by decide) (by decide)]
      exact h.noDots
  · intro h
    refine ⟨⟨?_, ?_, ?_, decodePath_home.mpr h.decoded, ?_, ?_⟩, oneLine_iff.mp h.oneLine⟩
    · rw [hmem (by decide), hmem (by decide)]
      exact h.unmarked
    · intro hspecial
      rw [hmem (by decide)]
      exact h.undivided (by rwa [← isSpecial_of_notWeb hweb])
    · rw [hdots (by decide) (by decide), hdots (by decide) (by decide)]
      exact h.noDots
    · rintro - ⟨⟩
    · intro hfile hplace
      rw [homePlace, if_pos hfile] at hplace
      cases hplace

/-- The path of a home whose name is not marked. -/
theorem path_homeDirectory (hweb : isWeb base.scheme = false)
    (hmarks : Unmarked (name.filter isKept)) : (homeDirectory base name).path =
      .rooted (followed (isFile base.scheme) (isSpecial base.scheme) (homePlace base.scheme)
        ((userHost ++ '/' :: name.filter isKept) ++ ['/'])) := by
  obtain ⟨all, hslashed, -, hsame⟩ := exists_slashed (isFile base.scheme)
    (followed (isFile base.scheme) (isSpecial base.scheme) (homePlace base.scheme)
      ((userHost ++ '/' :: name.filter isKept) ++ ['/'])) fun hfile =>
        ⟨_, by rw [followed, if_pos hfile]⟩
  rw [homeDirectory, homeRoute_of_notWeb hweb, path_directory, hslashed,
    hsame (getLast?_followed_concat_slash (unmarked_user.mpr hmarks))]

theorem sublist_home (name : List Char) :
    ((userHost ++ '/' :: name.filter isKept) ++ ['/']).Sublist
      ((userHost ++ '/' :: name) ++ ['/']) :=
  ((List.filter_sublist.cons_cons '/').append_left userHost).append_right ['/']

/-- The path that a session starts in is its user's home exactly if the name is one that a URI holds
as it is. -/
theorem decodePath_home_iff {out : List Char}
    (hout : Percent.decodePath (homeDirectory base name).path.text = .ok out) :
    out = homePath name ↔ Unchanged base.scheme name := by
  rw [homePath_eq]
  constructor
  · rintro rfl
    rw [← homePath_eq] at hout
    have hweb := notWeb_of_home hout
    have hmarks := unmarked_of_home hweb hout
    rw [path_homeDirectory hweb hmarks, homePath_eq] at hout
    obtain ⟨hsame, hfollowable⟩ :=
      (isStart_homePlace base.scheme).followable (sublist_home name) hout
    have hkept : name.filter isKept = name :=
      (List.cons.inj (List.append_cancel_left (List.append_cancel_right hsame))).2
    exact (followable_home_iff hweb).mp ⟨hfollowable, hkept⟩
  · intro h
    obtain ⟨hfollowable, hkept⟩ := (followable_home_iff h.notWeb).mpr h
    have hmarks : Unmarked (name.filter isKept) := by
      rw [hkept]
      exact unmarked_iff.mp h.unmarked
    rw [path_homeDirectory h.notWeb hmarks, hkept,
      hfollowable.decodePath (isStart_homePlace base.scheme)] at hout
    exact (Except.ok.inj hout).symm

end Homes

end Url

end MetaFs
