import Mathlib
import MetaFs.Proofs.EscapedPaths
/-! How much a path says. Escaping adds nothing to it and following takes away from it, so that a
path that is as large as its text has lost nothing. -/

namespace MetaFs

namespace Utf8

variable {c : Char} {text rest : List Char}

/-- How many bytes a text takes. -/
def size (text : List Char) : ℕ :=
  (encode text).length

theorem size_append : size (text ++ rest) = size text + size rest := by
  rw [size, encode_append, List.length_append]
  rfl

theorem size_cons : size (c :: text) = (String.utf8EncodeChar c).length + size text := by
  rw [size, encode_cons, List.length_append]
  rfl

theorem length_utf8EncodeChar_pos (c : Char) : 0 < (String.utf8EncodeChar c).length :=
  List.length_pos_iff.mpr String.utf8EncodeChar_ne_nil

theorem size_cons_of_lt (h : c.toNat < 128) : size (c :: text) = 1 + size text := by
  rw [size_cons, utf8EncodeChar_of_lt h]
  rfl

theorem lt_size_cons : size text < size (c :: text) := by
  have hc := length_utf8EncodeChar_pos c
  rw [size_cons]
  omega

/-- What is left of a text is smaller, unless it is the text. -/
theorem size_le_of_sublist (h : text.Sublist rest) :
    size text ≤ size rest ∧ (size rest ≤ size text → text = rest) := by
  induction h with
  | slnil => exact ⟨le_refl _, fun _ => rfl⟩
  | @cons text rest c h ih =>
    have hlt : size text < size (c :: rest) := lt_of_le_of_lt ih.1 lt_size_cons
    exact ⟨hlt.le, fun hle => absurd hle (not_le_of_gt hlt)⟩
  | @cons_cons text rest c h ih =>
    rw [size_cons, size_cons]
    refine ⟨Nat.add_le_add_left ih.1 _, fun hle => ?_⟩
    rw [ih.2 (Nat.le_of_add_le_add_left hle)]

end Utf8

namespace Percent

/-- What a text stands for is no larger than the text. -/
theorem length_scan_le (text : List Char) : (scan text).length ≤ Utf8.size text := by
  fun_induction scan text with
  | case1 => exact le_refl _
  | case2 a b rest hkept ih =>
    have hescape : (Utf8.encode ['%', '2', b.toUpper]).length = 3 := by
      rcases toUpper_of_isKept hkept.2 with hb | hb <;> rw [hb] <;> rfl
    have ha := Utf8.length_utf8EncodeChar_pos a
    have hb := Utf8.length_utf8EncodeChar_pos b
    rw [List.length_append, hescape, Utf8.size_cons_of_lt (by decide), Utf8.size_cons,
      Utf8.size_cons]
    omega
  | case3 a b rest hkept x y hb ha ih =>
    rw [List.length_cons, Utf8.size_cons_of_lt (by decide), Utf8.size_cons, Utf8.size_cons]
    omega
  | case4 a b rest hkept hdigits ih =>
    rw [List.length_cons, Utf8.size_cons_of_lt (by decide)]
    omega
  | case5 c rest hc ih =>
    rw [List.length_append, Utf8.size_cons]
    omega

end Percent

namespace Url

theorem sum_size_parts (special : Bool) (text : List Char) :
    ((parts (divides special) text).map fun part => 1 + Utf8.size part).sum =
      1 + Utf8.size text := by
  induction text with
  | nil => rfl
  | cons c text ih =>
    by_cases hc : divides special c = true
    · have hascii : c.toNat < 128 := by
        rcases divides_cases hc with rfl | rfl <;> decide
      rw [parts_cons_of_separates hc, List.map_cons, List.sum_cons, ih,
        Utf8.size_cons_of_lt hascii]
      rfl
    · rw [Bool.not_eq_true] at hc
      obtain ⟨first, more, htext, hparts⟩ := parts_cons_of_not hc text
      rw [htext, List.map_cons, List.sum_cons] at ih
      rw [hparts, List.map_cons, List.sum_cons, Utf8.size_cons, Utf8.size_cons]
      omega

namespace Path

/-- How much segments say, with the slash before each of them. -/
def weight (segments : List Segment) : ℕ :=
  (segments.map fun segment => 1 + (Percent.scan segment).length).sum

variable {segment : Segment} {segments more : List Segment}

theorem weight_cons :
    weight (segment :: segments) = 1 + (Percent.scan segment).length + weight segments := by
  rw [weight, List.map_cons, List.sum_cons]
  rfl

theorem weight_append : weight (segments ++ more) = weight segments + weight more := by
  rw [weight, List.map_append, List.sum_append]
  rfl

/-- The weight of a path is the size of what it stands for. -/
theorem length_scan_text (segments : List Segment) :
    (Percent.scan (Path.rooted segments).text).length = weight segments := by
  induction segments with
  | nil => rfl
  | cons segment segments ih =>
    have htext : (Path.rooted (segment :: segments)).text =
        '/' :: (segment ++ (Path.rooted segments).text) := rfl
    have hscan : Percent.scan (segment ++ (Path.rooted segments).text) =
        Percent.scan segment ++ Percent.scan (Path.rooted segments).text := by
      -- Behind a segment there is a slash or the end, so that no escape reaches across it.
      cases segments with
      | nil =>
        show Percent.scan (segment ++ []) = Percent.scan segment ++ []
        rw [List.append_nil, List.append_nil]
      | cons next segments =>
        have hnext : (Path.rooted (next :: segments)).text =
            '/' :: (next ++ (Path.rooted segments).text) := rfl
        rw [hnext, Percent.scan_append_slash, Percent.scan_cons (by decide)]
        rfl
    have hslash : String.utf8EncodeChar '/' = [47] := rfl
    rw [htext, Percent.scan_cons (by decide), hscan, weight_cons, hslash, List.length_append,
      List.length_append, ih, List.length_singleton, Nat.add_assoc]

/-- The segments of a text weigh no more than the text and a slash before it. -/
theorem weight_segmentsOf_le (special : Bool) (text : List Char) :
    weight (segmentsOf special text) ≤ 1 + Utf8.size text := by
  rw [segmentsOf_eq_map, weight, List.map_map, ← sum_size_parts special text]
  refine List.sum_le_sum fun part _ => ?_
  show 1 + (Percent.scan (Percent.encode escapedInPath part)).length ≤ _
  rw [Percent.scan_encode keepsEscapes_escapedInPath]
  exact Nat.add_le_add_left (Percent.length_scan_le part) 1

theorem weight_le_of_sublist (h : segments.Sublist more) : weight segments ≤ weight more :=
  (h.map _).sum_le_sum fun _ _ => Nat.zero_le _

/-- The weight without the empty segments at the front. -/
def trimmedWeight (segments : List Segment) : ℕ :=
  weight (segments.dropWhile List.isEmpty)

theorem trimmedWeight_append_le (segments more : List Segment) :
    trimmedWeight (segments ++ more) ≤ trimmedWeight segments + weight more := by
  rw [trimmedWeight, trimmedWeight, List.dropWhile_append]
  split_ifs
  · exact (weight_le_of_sublist (List.dropWhile_sublist _)).trans (Nat.le_add_left _ _)
  · rw [weight_append]

theorem trimmedWeight_le_append : trimmedWeight segments ≤ trimmedWeight (segments ++ more) := by
  rw [trimmedWeight, trimmedWeight, List.dropWhile_append]
  split_ifs with hempty
  · rw [List.isEmpty_iff.mp hempty]
    exact Nat.zero_le _
  · rw [weight_append]
    exact Nat.le_add_right _ _

theorem trimmedWeight_trimFront_le (segments : List Segment) :
    trimmedWeight (trimFront segments) ≤ trimmedWeight segments := by
  rw [trimFront]
  split
  · exact Nat.zero_le _
  · rw [trimmedWeight, trimmedWeight, List.dropWhile_idempotent]

/-- A measure of segments that is never lowered by what comes behind them, and raised by no more
than its weight. -/
structure IsMeasure (m : List Segment → ℕ) : Prop where
  le_append : ∀ segments more, m segments ≤ m (segments ++ more)
  append_le : ∀ segments more, m (segments ++ more) ≤ m segments + weight more

theorem isMeasure_weight : IsMeasure weight := by
  constructor
  · intro segments more
    rw [weight_append]
    exact Nat.le_add_right _ _
  · intro segments more
    rw [weight_append]

theorem isMeasure_trimmedWeight : IsMeasure trimmedWeight :=
  ⟨fun _ _ => trimmedWeight_le_append, trimmedWeight_append_le⟩

variable {isFile : Bool} {above : List Segment} {m : List Segment → ℕ}

theorem length_scan_settle_le :
    (Percent.scan (settle isFile above segment)).length ≤ (Percent.scan segment).length := by
  rw [settle.eq_def]
  split
  · rename_i c
    split_ifs with hc
    · have hpercent : c ≠ '%' := by
        rintro rfl
        cases hc
      rw [Percent.scan_cons hpercent, Percent.scan_cons hpercent, List.length_append,
        List.length_append]
      rfl
    · exact le_refl _
  · exact le_refl _

/-- Entering a segment adds no more than the segment, and nothing if it is one of dots. -/
theorem IsMeasure.enter_le (h : IsMeasure m) (isFile : Bool) (above : List Segment)
    (segment : Segment) : m (enter isFile above segment).reverse ≤
      m above.reverse + weight ([segment].filter fun s => !isDots s) := by
  rw [enter]
  split_ifs with hdouble hdot
  -- Two dots take a segment away, if there is one that can go.
  · refine le_trans ?_ (Nat.le_add_right _ _)
    cases above with
    | nil => exact le_refl _
    | cons first above =>
      rw [parent]
      split_ifs
      · exact le_refl _
      · rw [List.reverse_cons]
        exact h.le_append _ _
  · exact Nat.le_add_right _ _
  · have hname : [segment].filter (fun s => !isDots s) = [segment] := by
      simp [isDots, hdouble, hdot]
    rw [List.reverse_cons, hname]
    refine (h.append_le _ _).trans (Nat.add_le_add_left ?_ _)
    rw [weight_cons, weight_cons]
    exact Nat.add_le_add_right (Nat.add_le_add_left length_scan_settle_le 1) _

theorem IsMeasure.foldl_le (h : IsMeasure m) (isFile : Bool) (above segments : List Segment) :
    m (segments.foldl (enter isFile) above).reverse ≤
      m above.reverse + weight (segments.filter fun s => !isDots s) := by
  induction segments generalizing above with
  | nil => exact le_refl _
  | cons segment segments ih =>
    have hfilter : (segment :: segments).filter (fun s => !isDots s) =
        [segment].filter (fun s => !isDots s) ++ segments.filter fun s => !isDots s := by
      rw [← List.filter_append]
      rfl
    rw [List.foldl_cons, hfilter, weight_append]
    calc m (segments.foldl (enter isFile) (enter isFile above segment)).reverse
        ≤ m (enter isFile above segment).reverse +
            weight (segments.filter fun s => !isDots s) := ih _
      _ ≤ m above.reverse + weight ([segment].filter fun s => !isDots s) +
            weight (segments.filter fun s => !isDots s) :=
          Nat.add_le_add_right (h.enter_le isFile above segment) _
      _ = m above.reverse + (weight ([segment].filter fun s => !isDots s) +
            weight (segments.filter fun s => !isDots s)) := Nat.add_assoc _ _ _

theorem two_le_weight_of_isDots (h : isDots segment = true) :
    2 ≤ 1 + (Percent.scan segment).length := by
  rcases scan_of_isDots h with hscan | hscan <;> rw [hscan] <;> decide

/-- Segments of dots are not heavy, but each is heavier than an empty one. -/
theorem weight_filter_lt (hsegment : segment ∈ segments) (hdots : isDots segment = true) :
    weight (segments.filter fun s => !isDots s) + 1 < weight segments := by
  induction segments with
  | nil => cases hsegment
  | cons first segments ih =>
    rw [weight_cons]
    rcases List.mem_cons.mp hsegment with rfl | hmem
    · rw [List.filter_cons_of_neg (by simp [hdots])]
      have hle := weight_le_of_sublist (segments.filter_sublist (p := fun s => !isDots s))
      have htwo := two_le_weight_of_isDots hdots
      omega
    · have hlt := ih hmem
      by_cases hfirst : isDots first = true
      · rw [List.filter_cons_of_neg (by simp [hfirst])]
        omega
      · rw [List.filter_cons_of_pos (by simp [hfirst]), weight_cons]
        omega

/-- Following segments adds no more to a place than the segments, and less if dots are among them:
the empty segment that stands for dots at the end weighs less than they do. -/
theorem IsMeasure.follow_le (h : IsMeasure m) (isFile : Bool) (above segments : List Segment) :
    m (follow isFile above segments) ≤ m above.reverse + weight segments ∧
      ∀ segment ∈ segments, isDots segment = true →
        m (follow isFile above segments) < m above.reverse + weight segments := by
  by_cases hnil : segments = []
  · rw [hnil, follow]
    exact ⟨Nat.le_add_right _ _, by rintro segment ⟨⟩⟩
  have hfollow : m (follow isFile above segments) ≤
      m above.reverse + weight (segments.filter fun s => !isDots s) + 1 := by
    have hend : weight [[]] = 1 := rfl
    have hplace := h.foldl_le isFile above segments
    have happend := h.append_le (segments.foldl (enter isFile) above).reverse [[]]
    rw [follow_eq_foldl isFile above hnil]
    split_ifs
    · omega
    · rw [List.append_nil]
      omega
  have hlt (segment : Segment) (hsegment : segment ∈ segments) (hdots : isDots segment = true) :
      m (follow isFile above segments) < m above.reverse + weight segments := by
    have hfilter := weight_filter_lt hsegment hdots
    omega
  refine ⟨?_, hlt⟩
  by_cases hlast : isDots (segments.getLast hnil) = true
  · exact (hlt _ (List.getLast_mem hnil) hlast).le
  · rw [isDots, Bool.or_eq_true] at hlast
    rw [follow_eq_foldl isFile above hnil, if_neg hlast, List.append_nil]
    exact (h.foldl_le isFile above segments).trans
      (Nat.add_le_add_left (weight_le_of_sublist List.filter_sublist) _)

end Path

end Url

end MetaFs
