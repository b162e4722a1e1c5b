import Mathlib
import MetaFs.Proofs.PathText
import MetaFs.Url.Parse
/-! The paths of URLs. Their segments are settled: no segment is a dot segment any more, however its
dots may be written, and none has a character in it that would end the path. -/

namespace MetaFs.Url

/-! The letters of a text in lower case. -/

section Letters

variable {c : Char}

theorem toNat_lower (c : Char) : (lower c).toNat =
    if 65 ≤ c.toNat ∧ c.toNat ≤ 90 then c.toNat + 32 else c.toNat := by
  simp only [lower, Bool.and_eq_true, decide_eq_true_eq]
  split_ifs with hupper
  · rw [Char.toNat_ofNat, if_pos (Or.inl (by omega))]
  · rfl

theorem lower_lower (c : Char) : lower (lower c) = lower c := by
  apply Percent.eq_of_toNat_eq
  rw [toNat_lower (lower c), toNat_lower c]
  split_ifs <;> omega

theorem lower_eq (h : (lower c).toNat < 97) : lower c = c := by
  apply Percent.eq_of_toNat_eq
  rw [toNat_lower] at h ⊢
  split_ifs at h ⊢
  · omega
  · rfl

theorem eq_of_lower_eq_e (h : lower c = 'e') : c = 'e' ∨ c = 'E' := by
  have hnat : (lower c).toNat = 101 := congrArg Char.toNat h
  rw [toNat_lower] at hnat
  split_ifs at hnat
  · exact .inr (Percent.eq_of_toNat_eq (show c.toNat = 69 by omega))
  · exact .inl (Percent.eq_of_toNat_eq hnat)

theorem isAlpha_lower (h : isAlpha c = true) : isAlpha (lower c) = true := by
  simp only [isAlpha, toNat_lower, Bool.or_eq_true, Bool.and_eq_true, decide_eq_true_eq] at h ⊢
  split_ifs <;> omega

end Letters

/-! The parts of a text between its slashes. -/

section Parts

variable {separates : Char → Bool} {c : Char} {part text rest : List Char}

theorem parts_nil : parts separates [] = [[]] := rfl

theorem parts_cons_of_separates (h : separates c = true) :
    parts separates (c :: rest) = [] :: parts separates rest := by
  rw [parts, splitAtEach, h]
  rfl

theorem parts_cons_of_not (h : separates c = false) (rest : List Char) : ∃ first more,
    parts separates rest = first :: more ∧ parts separates (c :: rest) = (c :: first) :: more := by
  refine ⟨(splitAtEach separates rest).1, (splitAtEach separates rest).2, rfl, ?_⟩
  rw [parts, splitAtEach, h]
  rfl

theorem parts_append (hpart : ∀ c ∈ part, separates c = false) (hc : separates c = true) :
    parts separates (part ++ c :: rest) = part :: parts separates rest := by
  induction part with
  | nil => exact parts_cons_of_separates hc
  | cons d part ih =>
    obtain ⟨hd, hpart⟩ := List.forall_mem_cons.mp hpart
    obtain ⟨first, more, hrest, hparts⟩ := parts_cons_of_not hd (part ++ c :: rest)
    rw [ih hpart] at hrest
    obtain ⟨rfl, rfl⟩ := List.cons.inj hrest
    exact hparts

theorem parts_of_no_separator (hpart : ∀ c ∈ part, separates c = false) :
    parts separates part = [part] := by
  induction part with
  | nil => rfl
  | cons d part ih =>
    obtain ⟨hd, hpart⟩ := List.forall_mem_cons.mp hpart
    obtain ⟨first, more, hrest, hparts⟩ := parts_cons_of_not hd part
    rw [ih hpart] at hrest
    obtain ⟨rfl, rfl⟩ := List.cons.inj hrest
    exact hparts

/-- No part has a separator in it, and every character of a part is one of the text. -/
theorem mem_of_mem_parts (h : part ∈ parts separates text) (hc : c ∈ part) :
    separates c = false ∧ c ∈ text := by
  induction text generalizing part with
  | nil =>
    rw [parts_nil, List.mem_singleton] at h
    rw [h] at hc
    cases hc
  | cons d text ih =>
    by_cases hd : separates d = true
    · rw [parts_cons_of_separates hd] at h
      rcases List.mem_cons.mp h with rfl | hmem
      · cases hc
      · have := ih hmem hc
        exact ⟨this.1, List.mem_cons_of_mem d this.2⟩
    · rw [Bool.not_eq_true] at hd
      obtain ⟨first, more, hrest, hparts⟩ := parts_cons_of_not hd text
      rw [hparts] at h
      rcases List.mem_cons.mp h with rfl | hmem
      · rcases List.mem_cons.mp hc with rfl | hmem
        · exact ⟨hd, List.mem_cons_self⟩
        · have hfirst : first ∈ parts separates text := by
            rw [hrest]
            exact List.mem_cons_self
          have := ih hfirst hmem
          exact ⟨this.1, List.mem_cons_of_mem d this.2⟩
      · have hpart : part ∈ parts separates text := by
          rw [hrest]
          exact List.mem_cons_of_mem first hmem
        have := ih hpart hc
        exact ⟨this.1, List.mem_cons_of_mem d this.2⟩

/-- Parts without a separator in them are found again. -/
theorem parts_intercalate {all : List (List Char)} (hc : separates c = true) (hne : all ≠ [])
    (hall : ∀ part ∈ all, ∀ d ∈ part, separates d = false) :
    parts separates ([c].intercalate all) = all := by
  induction all with
  | nil => exact absurd rfl hne
  | cons part all ih =>
    obtain ⟨hpart, hall⟩ := List.forall_mem_cons.mp hall
    cases all with
    | nil => rw [List.intercalate_singleton, parts_of_no_separator hpart]
    | cons next all =>
      rw [List.intercalate_cons_cons, List.append_assoc, List.singleton_append,
        parts_append hpart hc, ih (List.cons_ne_nil _ _) hall]

theorem forall_mem_intercalate {holds : Char → Prop} {separator : List Char}
    {texts : List (List Char)} (hseparator : ∀ c ∈ separator, holds c)
    (h : ∀ text ∈ texts, ∀ c ∈ text, holds c) :
    ∀ c ∈ separator.intercalate texts, holds c := by
  induction texts with
  | nil => rintro c ⟨⟩
  | cons text texts ih =>
    obtain ⟨htext, htexts⟩ := List.forall_mem_cons.mp h
    cases texts with
    | nil =>
      rw [List.intercalate_singleton]
      exact htext
    | cons next texts =>
      rw [List.intercalate_cons_cons]
      exact List.forall_mem_append.mpr
        ⟨List.forall_mem_append.mpr ⟨htext, hseparator⟩, ih htexts⟩

end Parts

/-- Neither a query nor a fragment begins in the text. -/
def Unmarked (text : List Char) : Prop :=
  ∀ c ∈ text, endsPath c = false

theorem unmarked_nil : Unmarked [] := by
  rintro c ⟨⟩

theorem unmarked_append {text rest : List Char} :
    Unmarked (text ++ rest) ↔ Unmarked text ∧ Unmarked rest :=
  List.forall_mem_append

theorem unmarked_cons {c : Char} {text : List Char} :
    Unmarked (c :: text) ↔ endsPath c = false ∧ Unmarked text :=
  List.forall_mem_cons

theorem cut_of_unmarked {text : List Char} (h : Unmarked text) :
    cut endsPath text = (text, []) := by
  have hkept : ∀ c ∈ text, (!endsPath c) = true := by
    intro c hc
    rw [h c hc]
    rfl
  rw [cut, List.takeWhile_eq_self_iff.mpr hkept, List.dropWhile_eq_nil_iff.mpr hkept]

/-- The characters of escapes. -/
theorem mem_escape {c : Char} {b : UInt8} (h : c ∈ Percent.escape b) :
    c = '%' ∨ 48 ≤ c.toNat ∧ c.toNat ≤ 57 ∨ 65 ≤ c.toNat ∧ c.toNat ≤ 70 := by
  have hdigit (n : ℕ) (hn : n < 16) : 48 ≤ (Percent.upperDigit n).toNat ∧
      (Percent.upperDigit n).toNat ≤ 57 ∨ 65 ≤ (Percent.upperDigit n).toNat ∧
        (Percent.upperDigit n).toNat ≤ 70 := by
    interval_cases n <;> decide
  have hb := b.toNat_lt
  simp only [Percent.escape, List.mem_cons, List.not_mem_nil, or_false] at h
  rcases h with rfl | rfl | rfl
  · exact .inl rfl
  · exact .inr (hdigit _ (by omega))
  · exact .inr (hdigit _ (by omega))

/-- What is escaped is gone, and nothing comes in but the characters of escapes. -/
theorem mem_encode {special : Char → Bool} {text : List Char} {c : Char}
    (h : c ∈ Percent.encode special text) :
    c ∈ text ∧ special c = false ∨ ∃ b, c ∈ Percent.escape b := by
  obtain ⟨d, hd, hc⟩ := List.mem_flatMap.mp h
  split_ifs at hc with hplain
  · rw [List.mem_singleton.mp hc]
    simp only [Bool.and_eq_true, Bool.not_eq_true'] at hplain
    exact .inl ⟨hd, hplain.2⟩
  · obtain ⟨b, -, hb⟩ := List.mem_flatMap.mp hc
    exact .inr ⟨b, hb⟩

theorem encode_eq_self {special : Char → Bool} {text : List Char}
    (h : ∀ c ∈ text, c.toNat < 128 ∧ special c = false) : Percent.encode special text = text := by
  induction text with
  | nil => rfl
  | cons c text ih =>
    obtain ⟨⟨hascii, hplain⟩, htext⟩ := List.forall_mem_cons.mp h
    have hkept : (decide (c.toNat < 128) && !special c) = true := by
      rw [hplain, decide_eq_true hascii]
      rfl
    rw [Percent.encode, List.flatMap_cons, if_pos hkept, List.singleton_append]
    exact congrArg (c :: ·) (ih htext)

/-- An encoded text begins with the character that it began with, or with an escape. -/
theorem exists_encode_cons (special : Char → Bool) (c : Char) (rest : List Char) : ∃ d tail,
    Percent.encode special (c :: rest) = d :: tail ∧ (d = c ∨ d = '%') := by
  rw [Percent.encode, List.flatMap_cons]
  split_ifs
  · exact ⟨c, _, rfl, .inl rfl⟩
  · obtain ⟨b, bs, hbytes⟩ := List.exists_cons_of_ne_nil (String.utf8EncodeChar_ne_nil (c := c))
    rw [hbytes]
    exact ⟨'%', _, rfl, .inr rfl⟩

theorem endsPath_of_mem_escape {c : Char} {b : UInt8} (h : c ∈ Percent.escape b) :
    endsPath c = false := by
  rcases mem_escape h with rfl | hdigit
  · rfl
  · simp only [endsPath, Bool.or_eq_false_iff, decide_eq_false_iff_not]
    constructor <;> rintro rfl <;> revert hdigit <;> decide

theorem unmarked_encode {special : Char → Bool} {text : List Char}
    (h : ∀ c ∈ text, endsPath c = true → special c = true) :
    Unmarked (Percent.encode special text) := by
  intro c hc
  rcases mem_encode hc with ⟨hmem, hplain⟩ | ⟨b, hb⟩
  · by_contra hends
    rw [h c hmem (Bool.eq_true_of_not_eq_false hends)] at hplain
    cases hplain
  · exact endsPath_of_mem_escape hb

theorem escapedInPath_of_endsPath {c : Char} (h : endsPath c = true) :
    escapedInPath c = true := by
  simp only [endsPath, Bool.or_eq_true, decide_eq_true_eq] at h
  rcases h with rfl | rfl <;> rfl

namespace Path

/-- A segment that stands for a name of its own. -/
structure Settled (segment : Segment) : Prop where
  unmarked : Unmarked segment
  undivided : '/' ∉ segment
  notDot : isDot segment = false
  notDoubleDot : isDoubleDot segment = false

theorem settled_nil : Settled [] :=
  ⟨unmarked_nil, List.not_mem_nil, rfl, rfl⟩

/-- The segments of a text may be dot segments still. -/
theorem of_mem_segmentsOf {special : Bool} {text : List Char} {segment : Segment}
    (h : segment ∈ segmentsOf special text) : Unmarked segment ∧ '/' ∉ segment := by
  constructor
  · intro c hc
    exact unmarked_encode (fun c _ => escapedInPath_of_endsPath) c (mem_of_mem_parts h hc).2
  · intro hslash
    have := (mem_of_mem_parts h hslash).1
    cases this

theorem mem_parent {above : List Segment} {segment : Segment} (h : segment ∈ parent above) :
    segment ∈ above := by
  cases above with
  | nil => cases h
  | cons first above =>
    rw [parent] at h
    split_ifs at h
    · exact h
    · exact List.mem_cons_of_mem first h

theorem settled_drive {c : Char} (h : Settled [c, '|']) : Settled [c, ':'] := by
  have hc := unmarked_cons.mp h.unmarked
  have hslash := h.undivided
  refine ⟨unmarked_cons.mpr ⟨hc.1, unmarked_cons.mpr ⟨rfl, unmarked_nil⟩⟩, ?_, ?_, ?_⟩
  · simpa using hslash
  · simp [isDot]
  · rw [isDoubleDot.eq_def]
    split
    · rename_i heq
      obtain ⟨-, rfl⟩ := List.cons.inj heq
      rfl
    · rename_i heq
      cases heq
    · rfl

theorem settled_settle {isFile : Bool} {above : List Segment} {segment : Segment}
    (h : Settled segment) : Settled (settle isFile above segment) := by
  rw [settle.eq_def]
  split
  · split_ifs
    · exact settled_drive h
    · exact h
  · exact h

/-! A path is followed one segment at a time. -/

section Following

variable {isFile : Bool} {above segments : List Segment} {segment : Segment}

/-- The place behind one segment. -/
def enter (isFile : Bool) (above : List Segment) (segment : Segment) : List Segment :=
  if isDoubleDot segment then parent above
  else if isDot segment then above
  else settle isFile above segment :: above

/-- A path is followed segment by segment; behind dots at its end comes an empty segment. -/
theorem follow_eq_foldl (isFile : Bool) (above : List Segment) (hne : segments ≠ []) :
    follow isFile above segments = (segments.foldl (enter isFile) above).reverse ++
      if isDoubleDot (segments.getLast hne) ∨ isDot (segments.getLast hne) then [[]] else [] := by
  induction segments generalizing above with
  | nil => exact absurd rfl hne
  | cons segment segments ih =>
    -- The last segment is entered like the others; what comes behind it depends on it alone.
    cases segments with
    | nil =>
      rw [follow, List.foldl_cons, List.foldl_nil, enter, List.getLast_singleton]
      by_cases hdouble : isDoubleDot segment = true
      · simp only [hdouble, true_or, if_true]
      · by_cases hdot : isDot segment = true
        · simp only [hdouble, hdot, or_true, if_true, Bool.false_eq_true, if_false]
        · simp only [hdouble, hdot, or_self, Bool.false_eq_true, if_false, List.append_nil]
    | cons next segments =>
      rw [List.foldl_cons, List.getLast_cons (List.cons_ne_nil next segments),
        ← ih (enter isFile above segment) (List.cons_ne_nil next segments), follow, enter]
      · split_ifs <;> rfl
      · exact List.cons_ne_nil next segments

theorem settled_enter (habove : ∀ s ∈ above, Settled s)
    (hfree : Unmarked segment ∧ '/' ∉ segment) : ∀ s ∈ enter isFile above segment, Settled s := by
  rw [enter]
  split_ifs with hdouble hdot
  · exact fun s hs => habove s (mem_parent hs)
  · exact habove
  · rw [Bool.not_eq_true] at hdouble hdot
    exact List.forall_mem_cons.mpr
      ⟨settled_settle ⟨hfree.1, hfree.2, hdot, hdouble⟩, habove⟩

/-- Whatever is followed, from a place whose segments are settled it leads to such a place. -/
theorem settled_follow (habove : ∀ segment ∈ above, Settled segment)
    (hsegments : ∀ segment ∈ segments, Unmarked segment ∧ '/' ∉ segment) :
    ∀ segment ∈ follow isFile above segments, Settled segment := by
  have hplace : ∀ s ∈ segments.foldl (enter isFile) above, Settled s :=
    List.foldlRecOn (motive := fun place => ∀ s ∈ place, Settled s) segments _ habove
      fun place hplace segment hsegment => settled_enter hplace (hsegments segment hsegment)
  by_cases hnil : segments = []
  · rw [hnil, follow]
    exact fun s hs => habove s (List.mem_reverse.mp hs)
  · rw [follow_eq_foldl isFile above hnil]
    refine List.forall_mem_append.mpr ⟨fun s hs => hplace s (List.mem_reverse.mp hs), ?_⟩
    split_ifs
    · exact List.forall_mem_singleton.mpr settled_nil
    · rintro s ⟨⟩

end Following

theorem mem_trimFront {segments : List Segment} {segment : Segment}
    (h : segment ∈ trimFront segments) : segment ∈ segments ∨ segment = [] := by
  rw [trimFront] at h
  split at h
  · exact .inr (List.mem_singleton.mp h)
  · exact .inl ((List.dropWhile_sublist _).mem h)

theorem settled_trimFront {segments : List Segment} (h : ∀ segment ∈ segments, Settled segment) :
    ∀ segment ∈ trimFront segments, Settled segment := by
  intro segment hsegment
  rcases mem_trimFront hsegment with hmem | rfl
  · exact h segment hmem
  · exact settled_nil

/-- A path as every URL has it: settled segments, or a plain text that does not start like a rooted
path. -/
def Proper : Path → Prop
  | plain text => Unmarked text ∧ text.head? ≠ some '/'
  | rooted segments => ∀ segment ∈ segments, Settled segment

theorem Proper.unmarked {path : Path} (h : path.Proper) : Unmarked path.text := by
  cases path with
  | plain text => exact h.1
  | rooted segments =>
    intro c hc
    obtain ⟨segment, hsegment, hc⟩ := List.mem_flatMap.mp hc
    rcases List.mem_cons.mp hc with rfl | hmem
    · rfl
    · exact (h segment hsegment).unmarked c hmem

/-! What a settled segment stands for is no dot segment either. -/

theorem escape_of_dot {a b : Char} (h : Percent.IsEscape a b '.') : a = '2' ∧ lower b = 'e' := by
  obtain ⟨x, y, ha, hb, hvalue⟩ := h.value
  obtain ⟨hx, hax⟩ := Percent.digitValue?_eq_some ha
  obtain ⟨hy, hby⟩ := Percent.digitValue?_eq_some hb
  replace hvalue : x * 16 + y = 46 := hvalue
  refine ⟨Percent.eq_of_toNat_eq (show a.toNat = 50 by omega), ?_⟩
  -- 46 is 2E in digits, of either case.
  rcases (by omega : b.toNat = 69 ∨ b.toNat = 101) with hb | hb
  · rw [Percent.eq_of_toNat_eq (show b.toNat = 'E'.toNat from hb)]
    rfl
  · rw [Percent.eq_of_toNat_eq (show b.toNat = 'e'.toNat from hb)]
    rfl

theorem isDot_of_scan {segment : Segment} (h : Percent.scan segment = [46]) :
    isDot segment = true := by
  obtain ⟨rest, hrest, htext | ⟨a, b, hescape, htext⟩⟩ :=
    Percent.scan_eq_cons (c := '.') (by decide) (by decide) h
  · rw [htext, Percent.scan_eq_nil hrest]
    rfl
  · obtain ⟨rfl, hb⟩ := escape_of_dot hescape
    rw [htext, Percent.scan_eq_nil hrest, isDot, List.map_cons, List.map_cons, List.map_cons, hb]
    rfl

theorem isDoubleDot_of_scan {segment : Segment} (h : Percent.scan segment = [46, 46]) :
    isDoubleDot segment = true := by
  obtain ⟨rest, hrest, htext | ⟨a, b, hescape, htext⟩⟩ :=
    Percent.scan_eq_cons (c := '.') (by decide) (by decide) h
  · rw [htext]
    exact isDot_of_scan hrest
  · obtain ⟨rfl, hb⟩ := escape_of_dot hescape
    have hdot : isDot ['%', '2', b] = true := by
      rw [isDot, List.map_cons, List.map_cons, List.map_cons, hb]
      rfl
    rw [htext, isDoubleDot, hdot, isDot_of_scan hrest]
    rfl

/-- A name that is no dot segment and has no slash in it. -/
structure IsName (name : List Char) : Prop where
  undivided : '/' ∉ name
  ne_dot : name ≠ ['.']
  ne_doubleDot : name ≠ ['.', '.']

theorem Settled.isName {segment : Segment} {name : List Char} (h : Settled segment)
    (hname : Percent.decodePath segment = .ok name) : IsName name := by
  refine ⟨Percent.slash_notMem_of_decodePath hname h.undivided, ?_, ?_⟩
  · rintro rfl
    have hdot := isDot_of_scan (Percent.decodePath_eq_ok_iff.mp hname)
    rw [h.notDot] at hdot
    cases hdot
  · rintro rfl
    have hdouble := isDoubleDot_of_scan (Percent.decodePath_eq_ok_iff.mp hname)
    rw [h.notDoubleDot] at hdouble
    cases hdouble

/-! The path of a directory ends in an empty segment. -/

theorem settle_nil (isFile : Bool) (above : List Segment) : settle isFile above [] = [] := by
  rw [settle.eq_def]
  split
  · rename_i heq
    cases heq
  · rfl

theorem follow_concat_nil (isFile : Bool) (above segments : List Segment) :
    follow isFile above (segments ++ [[]]) =
      (segments.foldl (enter isFile) above).reverse ++ [[]] := by
  have hne : segments ++ [[]] ≠ [] := List.append_ne_nil_of_right_ne_nil _ (List.cons_ne_nil _ _)
  have hdots : ¬(isDoubleDot [] = true ∨ isDot [] = true) := by decide
  have hlast (above : List Segment) : enter isFile above [] = [] :: above := by
    show settle isFile above [] :: above = [] :: above
    rw [settle_nil]
  rw [follow_eq_foldl _ _ hne, List.getLast_concat, if_neg hdots, List.append_nil,
    List.foldl_append, List.foldl_cons, List.foldl_nil, hlast, List.reverse_cons]

theorem getLast?_follow_concat (isFile : Bool) (above segments : List Segment) :
    (follow isFile above (segments ++ [[]])).getLast? = some [] := by
  rw [follow_concat_nil, List.getLast?_concat]

theorem getLast?_trimFront {segments : List Segment} (h : segments.getLast? = some []) :
    (trimFront segments).getLast? = some [] := by
  rw [trimFront]
  split
  · rfl
  · rename_i hkept
    obtain ⟨front, hfront⟩ : segments.dropWhile List.isEmpty <:+ segments :=
      List.dropWhile_suffix _
    rw [← hfront, List.getLast?_append_of_ne_nil _ hkept] at h
    exact h

end Path

/-- The path of a directory: it is rooted exactly if the path that it was made from is, and then
ends in an empty segment. -/
theorem slashed_rooted (isFile : Bool) {segments : List Segment}
    (h : ∀ segment ∈ segments, Path.Settled segment) : ∃ front : List Segment,
      slashed isFile (.rooted segments) = .rooted (front ++ [[]]) ∧
        ∀ segment ∈ front, Path.Settled segment := by
  have hall : ∀ segment ∈ segments ++ [[]], Path.Settled segment :=
    List.forall_mem_append.mpr ⟨h, List.forall_mem_singleton.mpr Path.settled_nil⟩
  obtain ⟨all, hslashed, hlast, hall⟩ : ∃ all, slashed isFile (.rooted segments) = .rooted all ∧
      all.getLast? = some [] ∧ ∀ segment ∈ all, Path.Settled segment := by
    rw [slashed]
    split_ifs with hlast hfile
    · exact ⟨segments, rfl, hlast, h⟩
    · refine ⟨_, rfl, Path.getLast?_trimFront (Path.getLast?_follow_concat _ _ _),
        Path.settled_trimFront (Path.settled_follow (by simp) fun segment hmem => ?_)⟩
      exact ⟨(hall segment hmem).unmarked, (hall segment hmem).undivided⟩
    · exact ⟨_, rfl, List.getLast?_concat, hall⟩
  obtain ⟨front, rfl⟩ := List.getLast?_eq_some_iff.mp hlast
  exact ⟨front, hslashed, (List.forall_mem_append.mp hall).1⟩

/-- A plain path stays one, and is not empty any more. -/
theorem slashed_plain (isFile : Bool) {text : List Char} (h : (Path.plain text).Proper) :
    ∃ text', slashed isFile (.plain text) = .plain text' ∧ text' ≠ [] ∧
      (Path.plain text').Proper := by
  -- Blanks are taken away at the end, so that the beginning is as before.
  obtain ⟨kept, rest, hkept, htext⟩ : ∃ kept rest,
      (text.reverse.dropWhile (· = ' ')).reverse = kept ∧ text = kept ++ rest := by
    refine ⟨_, (text.reverse.takeWhile (· = ' ')).reverse, rfl, ?_⟩
    rw [← List.reverse_append, List.takeWhile_append_dropWhile, List.reverse_reverse]
  have hunmarked : Unmarked kept := (unmarked_append.mp (htext ▸ h.1)).1
  have hhead : kept.head? ≠ some '/' := by
    intro hslash
    apply h.2
    rw [htext, List.head?_append, hslash]
    rfl
  have hslash : Unmarked ['/'] := unmarked_cons.mpr ⟨rfl, unmarked_nil⟩
  rw [slashed, hkept]
  cases kept with
  | nil =>
    -- A slash alone would be a root, and is escaped.
    refine ⟨['%', '2', 'F'], rfl, by simp, ?_, by simp⟩
    simp only [unmarked_cons]
    exact ⟨rfl, rfl, rfl, unmarked_nil⟩
  | cons c kept =>
    have hc : c ≠ '/' := fun heq => hhead (congrArg some heq)
    split_ifs with hlast
    · exact ⟨_, rfl, List.cons_ne_nil _ _, hunmarked, hhead⟩
    · refine ⟨c :: kept ++ ['/'], ?_, List.cons_ne_nil _ _, unmarked_append.mpr ⟨hunmarked, hslash⟩,
        hhead⟩
      rw [List.cons_append]
      split
      · rename_i heq
        exact absurd (List.cons.inj heq).1 hc
      · rfl

end MetaFs.Url
