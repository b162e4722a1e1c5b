import Mathlib
import MetaFs.Proofs.UrlPaths
/-! Escaped paths. Escaping a path changes nothing of what it stands for, and its segments are the
components of the path, each of them escaped. -/

namespace MetaFs

namespace Percent

section Escaping

variable {special : Char → Bool} {c d : Char} {text rest : List Char}

theorem encode_cons_of_plain (hascii : c.toNat < 128) (hc : special c = false) :
    encode special (c :: text) = c :: encode special text := by
  have hkept : (decide (c.toNat < 128) && !special c) = true := by
    rw [hc, decide_eq_true hascii]
    rfl
  rw [encode, List.flatMap_cons, if_pos hkept]
  rfl

theorem encode_cons_of_escaped (h : 128 ≤ c.toNat ∨ special c = true) :
    encode special (c :: text) =
      (String.utf8EncodeChar c).flatMap escape ++ encode special text := by
  have hescaped : ¬(decide (c.toNat < 128) && !special c) = true := by
    rw [Bool.and_eq_true, decide_eq_true_eq, Bool.not_eq_true']
    rintro ⟨hascii, hc⟩
    rcases h with hwide | hspecial
    · omega
    · rw [hc] at hspecial
      cases hspecial
  rw [encode, List.flatMap_cons, if_neg hescaped]
  rfl

/-- What an encoded text begins with, but an escape, the text began with. -/
theorem exists_of_encode_cons (hd : d ≠ '%') (h : encode special text = d :: rest) :
    ∃ text', text = d :: text' ∧ rest = encode special text' := by
  cases text with
  | nil => cases h
  | cons c text =>
    by_cases hplain : c.toNat < 128 ∧ special c = false
    · rw [encode_cons_of_plain hplain.1 hplain.2] at h
      cases h
      exact ⟨text, rfl, rfl⟩
    · have hescaped : 128 ≤ c.toNat ∨ special c = true := by
        rw [not_and_or, not_lt, Bool.not_eq_false] at hplain
        exact hplain
      rw [encode_cons_of_escaped hescaped] at h
      obtain ⟨b, bytes, hbytes⟩ :=
        List.exists_cons_of_ne_nil (String.utf8EncodeChar_ne_nil (c := c))
      rw [hbytes] at h
      cases h
      exact absurd rfl hd

theorem digitValue?_upperDigit {n : ℕ} (h : n < 16) : digitValue? (upperDigit n) = some n := by
  interval_cases n <;> decide

/-- The digits of the escapes that stay are those of a slash and of a percent sign. -/
theorem eq_of_isKept_upperDigit : ∀ high < 16, ∀ low < 16, upperDigit high = '2' →
    isKept (upperDigit low) = true → high * 16 + low = 47 ∨ high * 16 + low = 37 := by
  decide

/-- An escape is read as the byte that it was written for. -/
theorem scan_escape {b : UInt8} (hslash : b ≠ 47) (hpercent : b ≠ 37) (rest : List Char) :
    scan (escape b ++ rest) = b :: scan rest := by
  have hhigh : b.toNat / 16 < 16 := by
    have hb := b.toNat_lt
    omega
  have hlow : b.toNat % 16 < 16 := Nat.mod_lt _ (by omega)
  have hvalue : b.toNat / 16 * 16 + b.toNat % 16 = b.toNat := Nat.div_add_mod' b.toNat 16
  have hkept : ¬(upperDigit (b.toNat / 16) = '2' ∧ isKept (upperDigit (b.toNat % 16)) = true) := by
    rintro ⟨htwo, hlast⟩
    rcases eq_of_isKept_upperDigit _ hhigh _ hlow htwo hlast with hb | hb
    · exact hslash (UInt8.toNat_inj.mp (hvalue.symm.trans hb))
    · exact hpercent (UInt8.toNat_inj.mp (hvalue.symm.trans hb))
  show scan ('%' :: upperDigit (b.toNat / 16) :: upperDigit (b.toNat % 16) :: rest) = _
  rw [scan_of_digits hkept (digitValue?_upperDigit hhigh) (digitValue?_upperDigit hlow), hvalue,
    UInt8.ofNat_toNat]

theorem scan_escapes {bytes : List UInt8} (h : ∀ b ∈ bytes, b ≠ 47 ∧ b ≠ 37) (rest : List Char) :
    scan (bytes.flatMap escape ++ rest) = bytes ++ scan rest := by
  induction bytes with
  | nil => rfl
  | cons b bytes ih =>
    obtain ⟨⟨hslash, hpercent⟩, hbytes⟩ := List.forall_mem_cons.mp h
    rw [List.flatMap_cons, List.append_assoc, scan_escape hslash hpercent, ih hbytes]
    rfl

theorem digitValue?_lt {n : ℕ} (h : digitValue? c = some n) : c.toNat < 128 := by
  have hc := (digitValue?_eq_some h).2
  have hn := (digitValue?_eq_some h).1
  omega

/-- Digits, slashes and percent signs are left alone. -/
def KeepsEscapes (special : Char → Bool) : Prop :=
  ∀ c, special c = true → digitValue? c = none ∧ c ≠ '/' ∧ c ≠ '%'

theorem KeepsEscapes.encode_digit (hspecial : KeepsEscapes special) {n : ℕ}
    (h : digitValue? c = some n) : encode special (c :: text) = c :: encode special text := by
  refine encode_cons_of_plain (digitValue?_lt h) ?_
  by_contra hescaped
  have hnone := (hspecial c (Bool.eq_true_of_not_eq_false hescaped)).1
  rw [h] at hnone
  cases hnone

theorem digitValue?_of_isKept (h : isKept c = true) : ∃ n, digitValue? c = some n := by
  simp only [isKept, Bool.or_eq_true, decide_eq_true_eq] at h
  rcases h with (rfl | rfl) | rfl
  · exact ⟨15, by decide⟩
  · exact ⟨15, by decide⟩
  · exact ⟨5, by decide⟩

theorem exists_of_encode_cons_cons {a b : Char} (ha : a ≠ '%') (hb : b ≠ '%')
    (h : encode special text = a :: b :: rest) : ∃ rest', text = a :: b :: rest' := by
  obtain ⟨text', rfl, h'⟩ := exists_of_encode_cons ha h
  obtain ⟨rest', rfl, -⟩ := exists_of_encode_cons hb h'.symm
  exact ⟨rest', rfl⟩

/-- What makes no escape of a percent sign before it makes none when it is encoded, either. -/
theorem no_digits_encode (special : Char → Bool)
    (hkept : ¬∃ b rest, text = '2' :: b :: rest ∧ isKept b = true)
    (hdigits : ∀ a b rest, text = a :: b :: rest → digitValue? a = none ∨ digitValue? b = none) :
    (¬∃ b rest, encode special text = '2' :: b :: rest ∧ isKept b = true) ∧
      ∀ a b rest, encode special text = a :: b :: rest →
        digitValue? a = none ∨ digitValue? b = none := by
  constructor
  · rintro ⟨b, rest, heq, hb⟩
    obtain ⟨n, hn⟩ := digitValue?_of_isKept hb
    obtain ⟨rest', htext⟩ := exists_of_encode_cons_cons (by decide) (ne_percent_of_digit hn) heq
    exact hkept ⟨b, rest', htext, hb⟩
  · intro a b rest heq
    by_contra hboth
    rw [not_or, Option.eq_none_iff_forall_ne_some, Option.eq_none_iff_forall_ne_some] at hboth
    push Not at hboth
    obtain ⟨⟨x, ha⟩, y, hb⟩ := hboth
    obtain ⟨rest', htext⟩ :=
      exists_of_encode_cons_cons (ne_percent_of_digit ha) (ne_percent_of_digit hb) heq
    rcases hdigits a b rest' htext with hnone | hnone
    · rw [ha] at hnone
      cases hnone
    · rw [hb] at hnone
      cases hnone

/-- The bytes of what is escaped are none of the two whose escapes stay. -/
theorem KeepsEscapes.bytes (hspecial : KeepsEscapes special) (hc : c ≠ '%')
    (hescaped : 128 ≤ c.toNat ∨ special c = true) :
    ∀ b ∈ String.utf8EncodeChar c, b ≠ 47 ∧ b ≠ 37 := by
  intro b hb
  constructor
  · rintro rfl
    obtain rfl := (Utf8.mem_utf8EncodeChar_iff (c := '/') (by decide)).mp hb
    rcases hescaped with hwide | hslash
    · exact absurd hwide (by decide)
    · exact (hspecial '/' hslash).2.1 rfl
  · rintro rfl
    obtain rfl := (Utf8.mem_utf8EncodeChar_iff (c := '%') (by decide)).mp hb
    exact hc rfl

/-- An encoded text stands for what the text itself stands for. -/
theorem scan_encode (hspecial : KeepsEscapes special) (text : List Char) :
    scan (encode special text) = scan text := by
  -- An escape takes three characters at once, so that the recursion is on the length.
  match text with
  | [] => rfl
  | c :: text =>
    by_cases hc : c = '%'
    · subst hc
      have hpercent : special '%' = false := by
        by_contra hescaped
        exact (hspecial '%' (Bool.eq_true_of_not_eq_false hescaped)).2.2 rfl
      rw [encode_cons_of_plain (by decide) hpercent]
      cases behind text with
      | @kept b text hb =>
        obtain ⟨n, hn⟩ := digitValue?_of_isKept hb
        rw [hspecial.encode_digit (n := 2) (by decide), hspecial.encode_digit hn, scan_of_kept hb,
          scan_of_kept hb, scan_encode hspecial text]
      | @digits a b x y text hkept ha hb =>
        rw [hspecial.encode_digit ha, hspecial.encode_digit hb, scan_of_digits hkept ha hb,
          scan_of_digits hkept ha hb, scan_encode hspecial text]
      | plain hkept hdigits =>
        obtain ⟨hkept', hdigits'⟩ := no_digits_encode special hkept hdigits
        rw [scan_of_no_digits hkept' hdigits', scan_of_no_digits hkept hdigits,
          scan_encode hspecial text]
    · rw [scan_cons hc]
      by_cases hplain : c.toNat < 128 ∧ special c = false
      · rw [encode_cons_of_plain hplain.1 hplain.2, scan_cons hc, scan_encode hspecial text]
      · rw [not_and_or, not_lt, Bool.not_eq_false] at hplain
        rw [encode_cons_of_escaped hplain, scan_escapes (hspecial.bytes hc hplain),
          scan_encode hspecial text]
termination_by text.length

end Escaping

end Percent

namespace Url

section Parts

variable {separates : Char → Bool} {special : Char → Bool} {c : Char} {text rest : List Char}

theorem parts_append_left (rest : List Char) (htext : ∀ c ∈ text, separates c = false) :
    ∃ first more, parts separates rest = first :: more ∧
      parts separates (text ++ rest) = (text ++ first) :: more := by
  induction text with
  | nil => exact ⟨(splitAtEach separates rest).1, (splitAtEach separates rest).2, rfl, rfl⟩
  | cons c text ih =>
    obtain ⟨hc, htext⟩ := List.forall_mem_cons.mp htext
    obtain ⟨first, more, hrest, hparts⟩ := ih htext
    obtain ⟨first', more', hparts', hcons⟩ := parts_cons_of_not hc (text ++ rest)
    rw [hparts] at hparts'
    cases hparts'
    exact ⟨first, more, hrest, hcons⟩

/-- A separator divides a text for good. -/
theorem parts_append_parts (hc : separates c = true) (text rest : List Char) :
    parts separates (text ++ c :: rest) = parts separates text ++ parts separates rest := by
  induction text with
  | nil => exact parts_cons_of_separates hc
  | cons d text ih =>
    by_cases hd : separates d = true
    · rw [List.cons_append, parts_cons_of_separates hd, parts_cons_of_separates hd, ih]
      rfl
    · rw [Bool.not_eq_true] at hd
      obtain ⟨first, more, htext, hparts⟩ := parts_cons_of_not hd text
      obtain ⟨first', more', htext', hparts'⟩ := parts_cons_of_not hd (text ++ c :: rest)
      rw [ih, htext] at htext'
      cases htext'
      rw [List.cons_append, hparts', hparts]
      rfl

theorem length_parts (separates : Char → Bool) (text : List Char) :
    (parts separates text).length = 1 + text.countP separates := by
  induction text with
  | nil => rfl
  | cons c text ih =>
    by_cases hc : separates c = true
    · rw [parts_cons_of_separates hc, List.countP_cons_of_pos hc, List.length_cons, ih]
      omega
    · rw [Bool.not_eq_true] at hc
      obtain ⟨first, more, htext, hparts⟩ := parts_cons_of_not hc text
      rw [htext] at ih
      rw [hparts, List.countP_cons_of_neg (by simp [hc]), ← ih]
      rfl

/-- The parts of an encoded text are those of the text, encoded. -/
theorem parts_encode (hplain : ∀ c, separates c = true → c.toNat < 128 ∧ special c = false)
    (hescape : ∀ b, ∀ c ∈ Percent.escape b, separates c = false) (text : List Char) :
    parts separates (Percent.encode special text) =
      (parts separates text).map (Percent.encode special) := by
  induction text with
  | nil => rfl
  | cons c text ih =>
    by_cases hc : separates c = true
    · rw [Percent.encode_cons_of_plain (hplain c hc).1 (hplain c hc).2,
        parts_cons_of_separates hc, parts_cons_of_separates hc, ih]
      rfl
    · rw [Bool.not_eq_true] at hc
      have hkeeps : ∀ d ∈ Percent.encode special [c], separates d = false := by
        intro d hd
        rcases mem_encode hd with ⟨hmem, -⟩ | ⟨b, hb⟩
        · rwa [List.mem_singleton.mp hmem]
        · exact hescape b d hb
      have hcons (text : List Char) : Percent.encode special (c :: text) =
          Percent.encode special [c] ++ Percent.encode special text := by
        simp only [Percent.encode, List.flatMap_cons, List.flatMap_nil, List.append_nil]
      obtain ⟨first, more, htext, hparts⟩ := parts_cons_of_not hc text
      obtain ⟨first', more', hencoded, hparts'⟩ :=
        parts_append_left (Percent.encode special text) hkeeps
      rw [ih, htext] at hencoded
      cases hencoded
      rw [hcons text, hparts', hparts, List.map_cons, hcons first]

end Parts

section Components

variable {special : Bool} {text : List Char}

/-- What divides the path of a URL. -/
def divides (special : Bool) (c : Char) : Bool :=
  c = '/' || (special && c = '\\')

theorem divides_cases {c : Char} (h : divides special c = true) : c = '/' ∨ c = '\\' := by
  simp only [divides, Bool.or_eq_true, Bool.and_eq_true, decide_eq_true_eq] at h
  exact h.imp id And.right

theorem divides_false (c : Char) : divides false c = decide (c = '/') := by
  rw [divides, Bool.false_and, Bool.or_false]

theorem parts_eq_splitOn (text : List Char) : parts (divides false) text = text.splitOn '/' := by
  induction text with
  | nil => rfl
  | cons c text ih =>
    have hsplit : (c :: text).splitOn '/' = if (c == '/') = true then [] :: text.splitOn '/'
        else List.modifyHead (List.cons c) (text.splitOn '/') :=
      List.splitOnP_cons_eq_if_modifyHead c text
    rw [hsplit, ← ih]
    split_ifs with hc
    · exact parts_cons_of_separates (by rwa [divides_false, ← beq_eq_decide])
    · rw [Bool.not_eq_true] at hc
      have hslash : divides false c = false := by rwa [divides_false, ← beq_eq_decide]
      obtain ⟨first, more, htext, hparts⟩ := parts_cons_of_not hslash text
      rw [hparts, htext]
      rfl

theorem flatMap_parts (text : List Char) :
    (parts (divides false) text).flatMap ('/' :: ·) = '/' :: text := by
  induction text with
  | nil => rfl
  | cons c text ih =>
    by_cases hc : divides false c = true
    · rw [parts_cons_of_separates hc, List.flatMap_cons, ih]
      rw [divides_false, decide_eq_true_eq] at hc
      rw [hc]
      rfl
    · rw [Bool.not_eq_true] at hc
      obtain ⟨first, more, htext, hparts⟩ := parts_cons_of_not hc text
      rw [htext, List.flatMap_cons, List.cons_append, List.cons.injEq] at ih
      rw [hparts, List.flatMap_cons, List.cons_append, List.cons_append, ih.2]

/-- Without backslashes it is the slashes that divide a path, whatever the scheme. -/
theorem parts_divides (h : special = true → '\\' ∉ text) :
    parts (divides special) text = parts (divides false) text := by
  cases special with
  | false => rfl
  | true =>
    replace h := h rfl
    induction text with
    | nil => rfl
    | cons c text ih =>
      obtain ⟨hc, htext⟩ := not_or.mp (mt List.mem_cons.mpr h)
      have hsame : divides true c = divides false c := by
        simp [divides, Ne.symm hc]
      by_cases hslash : divides false c = true
      · rw [parts_cons_of_separates hslash, parts_cons_of_separates (hsame.trans hslash), ih htext]
      · rw [Bool.not_eq_true] at hslash
        obtain ⟨first, more, hfirst, hparts⟩ := parts_cons_of_not hslash text
        obtain ⟨first', more', hfirst', hparts'⟩ := parts_cons_of_not (hsame.trans hslash) text
        rw [ih htext, hfirst] at hfirst'
        cases hfirst'
        rw [hparts, hparts']

/-- A backslash that divides makes one part more. -/
theorem lt_length_parts (h : '\\' ∈ text) :
    (parts (divides false) text).length < (parts (divides true) text).length := by
  obtain ⟨front, back, rfl⟩ := List.append_of_mem h
  have hmono (text : List Char) : text.countP (divides false) ≤ text.countP (divides true) :=
    List.countP_mono_left fun c _ hc => by
      rw [divides_false] at hc
      rw [divides, hc]
      rfl
  have hfront := hmono front
  have hback := hmono back
  rw [length_parts, length_parts, List.countP_append, List.countP_append,
    List.countP_cons_of_neg (by decide), List.countP_cons_of_pos (by decide)]
  omega

theorem segmentsOf_eq_map (special : Bool) (text : List Char) : Path.segmentsOf special text =
    (parts (divides special) text).map (Percent.encode escapedInPath) := by
  refine parts_encode ?_ ?_ text
  · intro c hc
    rcases divides_cases hc with rfl | rfl <;> decide
  · intro b c hc
    by_contra hdivides
    rcases divides_cases (Bool.eq_true_of_not_eq_false hdivides) with rfl | rfl <;>
      exact absurd (mem_escape hc) (by decide)

theorem keepsEscapes_escapedInPath : Percent.KeepsEscapes escapedInPath := by
  intro c hc
  simp only [escapedInPath, escapedInQuery, isControl, Bool.or_eq_true, decide_eq_true_eq,
    List.contains_iff_mem, List.mem_cons, List.not_mem_nil, or_false] at hc
  rcases hc with (hcontrol | rfl | rfl | rfl | rfl | rfl) | rfl | rfl | rfl | rfl
  · refine ⟨?_, ?_, ?_⟩
    · rw [Option.eq_none_iff_forall_ne_some]
      intro n hn
      have hrange := Percent.digitValue?_eq_some hn
      omega
    · rintro rfl
      revert hcontrol
      decide
    · rintro rfl
      revert hcontrol
      decide
  all_goals decide

namespace Path

variable {isFile : Bool} {above segments : List Segment} {segment : Segment}

/-- A segment that only says where to go on. -/
def isDots (segment : Segment) : Bool :=
  isDoubleDot segment || isDot segment

theorem enter_of_name (h : isDots segment = false) :
    enter isFile above segment = settle isFile above segment :: above := by
  rw [isDots, Bool.or_eq_false_iff] at h
  rw [enter, h.1, h.2]
  rfl

/-- Behind another segment a drive letter is a name like any other. -/
theorem settle_of_ne_nil (h : isFile = true → above ≠ []) :
    settle isFile above segment = segment := by
  rw [settle.eq_def]
  split
  · exact absurd rfl (h rfl)
  · rfl

/-- Without dots in them segments are just what they are, but for a drive letter at the front. -/
theorem foldl_enter_of_names (h : ∀ s ∈ segment :: segments, isDots s = false) :
    (segment :: segments).foldl (enter isFile) above =
      segments.reverse ++ settle isFile above segment :: above := by
  induction segments generalizing above segment with
  | nil => rw [List.foldl_cons, enter_of_name (h segment List.mem_cons_self)]; rfl
  | cons next segments ih =>
    obtain ⟨hsegment, hsegments⟩ := List.forall_mem_cons.mp h
    rw [List.foldl_cons, enter_of_name hsegment, ih hsegments,
      settle_of_ne_nil fun _ => List.cons_ne_nil _ _, List.reverse_cons, List.append_assoc]
    rfl

/-- A dot is read where it stands, written as an escape or not. -/
theorem scan_of_isDot (h : isDot segment = true) (rest : List Char) :
    Percent.scan (segment ++ rest) = 46 :: Percent.scan rest := by
  rw [isDot, Bool.or_eq_true, decide_eq_true_eq, decide_eq_true_eq] at h
  rcases h with rfl | h
  · exact Percent.scan_cons (by decide)
  · obtain ⟨a, _, rfl, ha, h⟩ := List.map_eq_cons_iff.mp h
    obtain ⟨b, _, rfl, hb, h⟩ := List.map_eq_cons_iff.mp h
    obtain ⟨c, _, rfl, hc, h⟩ := List.map_eq_cons_iff.mp h
    obtain rfl := List.map_eq_nil_iff.mp h
    have hpercent : a = '%' := by rw [← ha, lower_eq (by rw [ha]; decide)]
    have htwo : b = '2' := by rw [← hb, lower_eq (by rw [hb]; decide)]
    subst hpercent htwo
    have hdigit : Percent.digitValue? c = some 14 ∧ Percent.isKept c = false := by
      rcases eq_of_lower_eq_e hc with rfl | rfl <;> decide
    have hkept : ¬('2' = '2' ∧ Percent.isKept c = true) := by
      rw [hdigit.2]
      rintro ⟨-, ⟨⟩⟩
    have htwo : Percent.digitValue? '2' = some 2 := rfl
    exact Percent.scan_of_digits hkept htwo hdigit.1

/-- A segment of dots stands for one dot or two. -/
theorem scan_of_isDots (h : isDots segment = true) :
    Percent.scan segment = Utf8.encode ['.'] ∨ Percent.scan segment = Utf8.encode ['.', '.'] := by
  have hdot {segment : Segment} (h : isDot segment = true) : Percent.scan segment = [46] := by
    have hscan := scan_of_isDot h []
    rwa [List.append_nil] at hscan
  rw [isDots, Bool.or_eq_true] at h
  rcases h with hdouble | hsingle
  · right
    rw [isDoubleDot.eq_def] at hdouble
    split at hdouble
    · rw [Percent.scan_cons (by decide), hdot hdouble]
      rfl
    · rename_i a b rest
      rw [Bool.and_eq_true] at hdouble
      have hscan := scan_of_isDot hdouble.1 rest
      rw [hdot hdouble.2] at hscan
      exact hscan
    · cases hdouble
  · left
    rw [hdot hsingle]
    rfl

end Path

end Components

end Url

end MetaFs
