import Mathlib
import MetaFs.Percent
import MetaFs.Proofs.Utf8
/-! Paths in text. A path is decoded in one pass over its characters, and its components are decoded
one for one. -/

namespace MetaFs

theorem eq_ok_of_bind {ε α β : Type} {x : Except ε α} {f : α → Except ε β} {b : β}
    (h : (x >>= f) = .ok b) : ∃ a, x = .ok a ∧ f a = .ok b := by
  cases x with
  | error e => cases h
  | ok a => exact ⟨a, rfl, h⟩

namespace Percent

/-- The bytes of a path in one pass: the byte of each escape, but the escapes of a slash and of a
percent sign as they are, in upper case. -/
def scan : List Char → List UInt8
  | [] => []
  | '%' :: a :: b :: rest =>
    if a = '2' ∧ isKept b then Utf8.encode ['%', '2', b.toUpper] ++ scan rest
    else
      match digitValue? a, digitValue? b with
      | some x, some y => UInt8.ofNat (x * 16 + y) :: scan rest
      | _, _ => 37 :: scan (a :: b :: rest)
  | c :: rest => String.utf8EncodeChar c ++ scan rest

section Cases

variable {a b c d : Char} {x y : ℕ} {text rest : List Char}

theorem scan_cons (h : c ≠ '%') : scan (c :: rest) = String.utf8EncodeChar c ++ scan rest := by
  rw [scan]
  intro a b rest' hc
  exact absurd hc h

theorem decode_cons (h : c ≠ '%') :
    decode (c :: rest) = String.utf8EncodeChar c ++ decode rest := by
  rw [decode]
  intro a b rest' hc
  exact absurd hc h

theorem pieces_cons (h : c ≠ '%') :
    pieces (c :: rest) = (c :: (pieces rest).1, (pieces rest).2) := by
  rw [pieces]
  intro d rest' hc
  exact absurd hc h

theorem scan_of_kept (h : isKept b = true) :
    scan ('%' :: '2' :: b :: rest) = Utf8.encode ['%', '2', b.toUpper] ++ scan rest := by
  rw [scan, if_pos ⟨rfl, h⟩]

theorem pieces_of_kept (h : isKept b = true) : pieces ('%' :: '2' :: b :: rest) =
    ([], (['2', b.toUpper], (pieces rest).1) :: (pieces rest).2) := by
  rw [pieces, if_pos h]

/-- A percent sign that is kept for no other reason than that it starts no escape of a slash or of a
percent sign. -/
theorem pieces_of_not_kept (h : ¬∃ b rest', rest = '2' :: b :: rest' ∧ isKept b = true) :
    pieces ('%' :: rest) = ('%' :: (pieces rest).1, (pieces rest).2) := by
  rw [pieces.eq_def]
  split
  · rename_i heq
    cases heq
  · rename_i d rest' heq
    obtain ⟨-, rfl⟩ := List.cons.inj heq
    rw [if_neg fun hkept => h ⟨d, rest', rfl, hkept⟩]
  · rename_i heq
    obtain ⟨rfl, rfl⟩ := List.cons.inj heq
    rfl

theorem decode_of_digits (ha : digitValue? a = some x) (hb : digitValue? b = some y) :
    decode ('%' :: a :: b :: rest) = UInt8.ofNat (x * 16 + y) :: decode rest := by
  rw [decode, ha, hb]

/-- A percent sign without two digits behind it stands for itself. -/
theorem decode_of_no_digits (h : ∀ a b rest', rest = a :: b :: rest' →
    digitValue? a = none ∨ digitValue? b = none) : decode ('%' :: rest) = 37 :: decode rest := by
  match rest with
  | [] => rfl
  | [a] => rfl
  | a :: b :: rest =>
    rw [decode]
    rcases h a b rest rfl with ha | hb
    · rw [ha]
    · rw [hb]
      cases digitValue? a <;> rfl

theorem ne_percent_of_digit (h : digitValue? c = some x) : c ≠ '%' := by
  rintro rfl
  cases h

/-- What can stand behind a percent sign: the digits of a slash or of a percent sign, those of
another byte, or nothing that makes an escape. -/
inductive Behind : List Char → Prop where
  | kept {b : Char} (rest : List Char) (hb : isKept b = true) : Behind ('2' :: b :: rest)
  | digits {a b : Char} {x y : ℕ} (rest : List Char) (hkept : ¬(a = '2' ∧ isKept b))
      (ha : digitValue? a = some x) (hb : digitValue? b = some y) : Behind (a :: b :: rest)
  | plain {text : List Char} (hkept : ¬∃ b rest, text = '2' :: b :: rest ∧ isKept b = true)
      (hdigits : ∀ a b rest, text = a :: b :: rest → digitValue? a = none ∨ digitValue? b = none) :
      Behind text

theorem behind (text : List Char) : Behind text := by
  by_cases hkept : ∃ b rest, text = '2' :: b :: rest ∧ isKept b = true
  · obtain ⟨b, rest, rfl, hb⟩ := hkept
    exact .kept rest hb
  · by_cases hdigits : ∀ a b rest, text = a :: b :: rest →
        digitValue? a = none ∨ digitValue? b = none
    · exact .plain hkept hdigits
    · push Not at hdigits
      obtain ⟨a, b, rest, rfl, ha, hb⟩ := hdigits
      obtain ⟨x, ha⟩ := Option.ne_none_iff_exists'.mp ha
      obtain ⟨y, hb⟩ := Option.ne_none_iff_exists'.mp hb
      refine .digits rest ?_ ha hb
      rintro ⟨rfl, hb⟩
      exact hkept ⟨b, rest, rfl, hb⟩

theorem scan_of_digits (hkept : ¬(a = '2' ∧ isKept b)) (ha : digitValue? a = some x)
    (hb : digitValue? b = some y) :
    scan ('%' :: a :: b :: rest) = UInt8.ofNat (x * 16 + y) :: scan rest := by
  rw [scan, if_neg hkept, ha, hb]

theorem scan_of_no_digits (hkept : ¬∃ b rest', rest = '2' :: b :: rest' ∧ isKept b = true)
    (h : ∀ a b rest', rest = a :: b :: rest' → digitValue? a = none ∨ digitValue? b = none) :
    scan ('%' :: rest) = 37 :: scan rest := by
  match rest with
  | [] => rfl
  | [a] => rfl
  | a :: b :: rest =>
    have hnot : ¬(a = '2' ∧ isKept b) := by
      rintro ⟨rfl, hb⟩
      exact hkept ⟨b, rest, rfl, hb⟩
    rw [scan, if_neg hnot]
    rcases h a b rest rfl with ha | hb
    · rw [ha]
    · rw [hb]
      cases digitValue? a <;> rfl

/-- The text up to the first cut is a beginning of the whole. -/
theorem prefix_pieces (text : List Char) : (pieces text).1 <+: text := by
  fun_induction pieces text with
  | case1 => exact List.nil_prefix
  | case2 => exact List.nil_prefix
  | case3 d rest hkept piece more heq ih =>
    rw [heq] at ih
    exact List.cons_prefix_cons.mpr ⟨rfl, ih⟩
  | case4 c rest hc piece more heq ih =>
    rw [heq] at ih
    exact List.cons_prefix_cons.mpr ⟨rfl, ih⟩

end Cases

/-- The bytes of an escape that stays, and of the text behind it. -/
def partBytes (part : List Char × List Char) : List UInt8 :=
  Utf8.encode ('%' :: part.1) ++ decode part.2

/-- The bytes of a text that is cut into pieces. -/
def joined (cut : List Char × List (List Char × List Char)) : List UInt8 :=
  decode cut.1 ++ cut.2.flatMap partBytes

theorem joined_cons {c : Char} (h : c ≠ '%') (cut : List Char × List (List Char × List Char)) :
    joined (c :: cut.1, cut.2) = String.utf8EncodeChar c ++ joined cut := by
  rw [joined, decode_cons h, List.append_assoc]
  rfl

/-- Cutting a text at the escapes that stay and decoding what is between them is one pass. -/
theorem joined_pieces (text : List Char) : joined (pieces text) = scan text := by
  -- An escape takes three characters at once, so that the recursion is on the length.
  match text with
  | [] => rfl
  | c :: rest =>
    by_cases hc : c = '%'
    · subst hc
      cases behind rest with
      | @kept b rest hb =>
        rw [pieces_of_kept hb, scan_of_kept hb, ← joined_pieces rest]
        simp only [joined, partBytes, decode, List.flatMap_cons, List.nil_append,
          List.append_assoc]
      | @digits a b x y rest hkept ha hb =>
        have hpieces : pieces ('%' :: a :: b :: rest) =
            ('%' :: a :: b :: (pieces rest).1, (pieces rest).2) := by
          rw [pieces_of_not_kept, pieces_cons (ne_percent_of_digit ha),
            pieces_cons (ne_percent_of_digit hb)]
          rintro ⟨b', rest', heq, hb'⟩
          obtain ⟨rfl, htail⟩ := List.cons.inj heq
          obtain ⟨rfl, -⟩ := List.cons.inj htail
          exact hkept ⟨rfl, hb'⟩
        rw [hpieces, scan_of_digits hkept ha hb, ← joined_pieces rest, joined,
          decode_of_digits ha hb]
        rfl
      | plain hkept hdigits =>
        -- The piece may end before the text does, and so has even less behind the percent sign.
        have hpiece : ∀ a b rest', (pieces rest).1 = a :: b :: rest' →
            digitValue? a = none ∨ digitValue? b = none := by
          intro a b rest' hfirst
          obtain ⟨tail, htail⟩ := prefix_pieces rest
          rw [hfirst] at htail
          exact hdigits a b (rest' ++ tail) htail.symm
        rw [pieces_of_not_kept hkept, scan_of_no_digits hkept hdigits, ← joined_pieces rest,
          joined, decode_of_no_digits hpiece]
        rfl
    · rw [pieces_cons hc, joined_cons hc, joined_pieces rest, scan_cons hc]
termination_by text.length

/-- The text of an escape that stays, and the text behind it. -/
def decodePart (part : List Char × List Char) : Except Utf8.Malformed (List Char) := do
  let decoded ← Utf8.decode (decode part.2)
  return '%' :: part.1 ++ decoded

/-- The decoder as one computation, which stops at the first piece that is no text. -/
theorem decodePath_eq (text : List Char) : decodePath text = (do
    let front ← Utf8.decode (decode (pieces text).1)
    let parts ← (pieces text).2.mapM decodePart
    return front ++ parts.flatten) := rfl

theorem decodePart_eq_ok {part : List Char × List Char} {text : List Char} :
    decodePart part = .ok text ↔
      ∃ decoded, text = '%' :: part.1 ++ decoded ∧ decode part.2 = Utf8.encode decoded := by
  rw [decodePart]
  constructor
  · intro h
    obtain ⟨decoded, hd, h⟩ := eq_ok_of_bind h
    cases h
    exact ⟨decoded, rfl, Utf8.decode_eq_ok_iff.mp hd⟩
  · rintro ⟨decoded, rfl, hd⟩
    rw [Utf8.decode_eq_ok_iff.mpr hd]
    rfl

/-- Each part begins with a percent sign, and so no character goes over its beginning. -/
theorem split_before_parts {before : List UInt8} {more : List (List Char × List Char)}
    {out : List Char} (h : before ++ more.flatMap partBytes = Utf8.encode out) :
    ∃ front tail, out = front ++ tail ∧ before = Utf8.encode front ∧
      more.flatMap partBytes = Utf8.encode tail := by
  cases more with
  | nil =>
    rw [List.flatMap_nil, List.append_nil] at h
    exact ⟨out, [], (List.append_nil out).symm, h, rfl⟩
  | cons part more =>
    obtain ⟨front, tail, hout, hbefore, htail⟩ :=
      Utf8.split_at_ascii (c := '%') (by decide) h
    exact ⟨front, '%' :: tail, hout, hbefore, congrArg (37 :: ·) htail⟩

theorem mapM_decodePart_eq_ok {more : List (List Char × List Char)} {out : List Char} :
    (∃ parts, more.mapM decodePart = .ok parts ∧ parts.flatten = out) ↔
      more.flatMap partBytes = Utf8.encode out := by
  induction more generalizing out with
  | nil =>
    constructor
    · rintro ⟨parts, hparts, rfl⟩
      cases hparts
      rfl
    · intro h
      refine ⟨[], rfl, ?_⟩
      cases out with
      | nil => rfl
      | cons c out =>
        have hempty := (List.append_eq_nil_iff.mp h.symm).1
        exact absurd hempty String.utf8EncodeChar_ne_nil
  | cons part more ih =>
    rw [List.flatMap_cons]
    constructor
    · rintro ⟨parts, hparts, rfl⟩
      rw [List.mapM_cons] at hparts
      obtain ⟨text, hpart, hparts⟩ := eq_ok_of_bind hparts
      obtain ⟨rest, hmore, hparts⟩ := eq_ok_of_bind hparts
      cases hparts
      obtain ⟨decoded, rfl, hdecoded⟩ := decodePart_eq_ok.mp hpart
      rw [ih.mp ⟨rest, hmore, rfl⟩, partBytes, hdecoded, List.flatten_cons, Utf8.encode_append,
        Utf8.encode_append]
    · intro h
      rw [partBytes, List.append_assoc] at h
      obtain ⟨tail, rfl, htail⟩ := Utf8.eq_append_of_encode h
      -- Where the next part begins, a character of the text begins.
      obtain ⟨decoded, last, rfl, hdecoded, hlast⟩ := split_before_parts htail
      obtain ⟨rest, hrest, rfl⟩ := ih.mpr hlast
      refine ⟨('%' :: part.1 ++ decoded) :: rest, ?_, ?_⟩
      · rw [List.mapM_cons, decodePart_eq_ok.mpr ⟨decoded, rfl, hdecoded⟩, hrest]
        rfl
      · rw [List.flatten_cons, List.append_assoc]

/-- A path is decoded exactly if the bytes of one pass over it are text, and to that text. -/
theorem decodePath_eq_ok_iff {text out : List Char} :
    decodePath text = .ok out ↔ scan text = Utf8.encode out := by
  rw [decodePath_eq, ← joined_pieces, joined]
  constructor
  · intro h
    obtain ⟨front, hfront, h⟩ := eq_ok_of_bind h
    obtain ⟨parts, hparts, h⟩ := eq_ok_of_bind h
    cases h
    rw [mapM_decodePart_eq_ok.mp ⟨parts, hparts, rfl⟩, Utf8.decode_eq_ok_iff.mp hfront,
      Utf8.encode_append]
  · intro h
    obtain ⟨front, tail, rfl, hfront, htail⟩ := split_before_parts h
    obtain ⟨parts, hparts, rfl⟩ := mapM_decodePart_eq_ok.mpr htail
    rw [Utf8.decode_eq_ok_iff.mpr hfront, hparts]
    rfl

/-! A slash is never part of an escape, and never what an escape stands for. -/

theorem digitValue?_eq_some {c : Char} {n : ℕ} (h : digitValue? c = some n) :
    n < 16 ∧ (c.toNat = 48 + n ∧ n < 10 ∨ 10 ≤ n ∧ (c.toNat = 55 + n ∨ c.toNat = 87 + n)) := by
  simp only [digitValue?, Bool.and_eq_true, decide_eq_true_eq] at h
  split_ifs at h <;> obtain rfl := Option.some.inj h <;> omega

theorem eq_of_toNat_eq {c d : Char} (h : c.toNat = d.toNat) : c = d := by
  rw [← Char.ofNat_toNat c, h, Char.ofNat_toNat]

theorem value_of_byte {x y : ℕ} {b : UInt8} (hx : x < 16) (hy : y < 16)
    (h : UInt8.ofNat (x * 16 + y) = b) : x * 16 + y = b.toNat := by
  rw [← h, UInt8.toNat_ofNat']
  omega

/-- The escape of a slash is kept. -/
theorem kept_of_byte_eq_slash {a b : Char} {x y : ℕ} (ha : digitValue? a = some x)
    (hb : digitValue? b = some y) (h : UInt8.ofNat (x * 16 + y) = 47) :
    a = '2' ∧ isKept b = true := by
  obtain ⟨hx, hax⟩ := digitValue?_eq_some ha
  obtain ⟨hy, hby⟩ := digitValue?_eq_some hb
  have hnat : x * 16 + y = 47 := value_of_byte hx hy h
  -- 47 is 2F in digits.
  have ha2 : a = '2' := eq_of_toNat_eq (show a.toNat = 50 by omega)
  refine ⟨ha2, ?_⟩
  rcases (by omega : b.toNat = 70 ∨ b.toNat = 102) with hb | hb
  · rw [eq_of_toNat_eq (show b.toNat = 'F'.toNat from hb)]
    rfl
  · rw [eq_of_toNat_eq (show b.toNat = 'f'.toNat from hb)]
    rfl

theorem toUpper_of_isKept {b : Char} (h : isKept b = true) : b.toUpper = 'F' ∨ b.toUpper = '5' := by
  simp only [isKept, Bool.or_eq_true, decide_eq_true_eq] at h
  rcases h with (rfl | rfl) | rfl <;> decide

theorem slash_mem_of_mem_scan {text : List Char} (h : 47 ∈ scan text) : '/' ∈ text := by
  fun_induction scan text with
  | case1 => cases h
  | case2 a b rest hkept ih =>
    have hescape : 47 ∉ Utf8.encode ['%', '2', b.toUpper] := by
      rcases toUpper_of_isKept hkept.2 with hb | hb <;> rw [hb] <;> decide
    have hmem := ih ((List.mem_append.mp h).resolve_left hescape)
    simp [hmem]
  | case3 a b rest hkept x y hb ha ih =>
    rcases List.mem_cons.mp h with heq | hmem
    · exact absurd (kept_of_byte_eq_slash ha hb heq.symm) hkept
    · simp [ih hmem]
  | case4 a b rest hkept hdigits ih =>
    rcases List.mem_cons.mp h with heq | hmem
    · cases heq
    · exact List.mem_cons_of_mem _ (ih hmem)
  | case5 c rest hc ih =>
    rcases List.mem_append.mp h with hmem | hmem
    · rw [(Utf8.mem_utf8EncodeChar_iff (c := '/') (by decide)).mp hmem]
      exact List.mem_cons_self
    · exact List.mem_cons_of_mem _ (ih hmem)

/-- A slash makes no escape with what is before it. -/
theorem no_escape_append_slash {text : List Char} (rest : List Char)
    (hkept : ¬∃ b rest', text = '2' :: b :: rest' ∧ isKept b = true)
    (hdigits : ∀ a b rest', text = a :: b :: rest' →
      digitValue? a = none ∨ digitValue? b = none) :
    (¬∃ b rest', text ++ '/' :: rest = '2' :: b :: rest' ∧ isKept b = true) ∧
      ∀ a b rest', text ++ '/' :: rest = a :: b :: rest' →
        digitValue? a = none ∨ digitValue? b = none := by
  match text with
  | [] =>
    constructor
    · rintro ⟨b, rest', heq, -⟩
      cases heq
    · intro a b rest' heq
      obtain ⟨rfl, -⟩ := List.cons.inj heq
      exact .inl rfl
  | [c] =>
    constructor
    · rintro ⟨b, rest', heq, hb⟩
      obtain ⟨rfl, -⟩ := List.cons.inj (List.cons.inj heq).2
      cases hb
    · intro a b rest' heq
      obtain ⟨rfl, -⟩ := List.cons.inj (List.cons.inj heq).2
      exact .inr rfl
  | c :: d :: text =>
    constructor
    · rintro ⟨b, rest', heq, hb⟩
      obtain ⟨rfl, htail⟩ := List.cons.inj heq
      obtain ⟨rfl, -⟩ := List.cons.inj htail
      exact hkept ⟨_, _, rfl, hb⟩
    · intro a b rest' heq
      obtain ⟨rfl, htail⟩ := List.cons.inj heq
      obtain ⟨rfl, -⟩ := List.cons.inj htail
      exact hdigits _ _ _ rfl

theorem scan_append_slash (text rest : List Char) :
    scan (text ++ '/' :: rest) = scan text ++ 47 :: scan rest := by
  match text with
  | [] => exact scan_cons (by decide)
  | c :: text =>
    by_cases hc : c = '%'
    · subst hc
      cases behind text with
      | @kept b text hb =>
        rw [List.cons_append, List.cons_append, List.cons_append, scan_of_kept hb, scan_of_kept hb,
          scan_append_slash text rest, List.append_assoc]
      | @digits a b x y text hkept ha hb =>
        rw [List.cons_append, List.cons_append, List.cons_append, scan_of_digits hkept ha hb,
          scan_of_digits hkept ha hb, scan_append_slash text rest]
        rfl
      | plain hkept hdigits =>
        obtain ⟨hkept', hdigits'⟩ := no_escape_append_slash rest hkept hdigits
        rw [List.cons_append, scan_of_no_digits hkept' hdigits', scan_of_no_digits hkept hdigits,
          scan_append_slash text rest]
        rfl
    · rw [List.cons_append, scan_cons hc, scan_cons hc, scan_append_slash text rest,
        List.append_assoc]
termination_by text.length

theorem decodePath_nil : decodePath [] = .ok [] :=
  decodePath_eq_ok_iff.mpr rfl

/-- What is before a slash and what is behind it are decoded each on its own. -/
theorem decodePath_append_slash {text rest out : List Char} :
    decodePath (text ++ '/' :: rest) = .ok out ↔ ∃ front tail,
      out = front ++ '/' :: tail ∧ decodePath text = .ok front ∧ decodePath rest = .ok tail := by
  simp only [decodePath_eq_ok_iff, scan_append_slash]
  constructor
  · intro h
    exact Utf8.split_at_ascii (c := '/') (by decide) h
  · rintro ⟨front, tail, rfl, hfront, htail⟩
    rw [hfront, htail, Utf8.encode_append]
    rfl

/-- Only a slash is decoded to a slash. -/
theorem slash_notMem_of_decodePath {raw name : List Char} (h : decodePath raw = .ok name)
    (hraw : '/' ∉ raw) : '/' ∉ name := by
  intro hname
  apply hraw
  apply slash_mem_of_mem_scan
  rw [decodePath_eq_ok_iff.mp h]
  exact List.mem_flatMap.mpr ⟨'/', hname, by decide⟩

/-- Text without a percent sign is decoded to itself. -/
theorem decodePath_of_no_percent {text : List Char} (h : '%' ∉ text) :
    decodePath text = .ok text := by
  rw [decodePath_eq_ok_iff]
  induction text with
  | nil => rfl
  | cons c text ih =>
    rw [scan_cons fun hc => h (hc ▸ List.mem_cons_self),
      ih fun hmem => h (List.mem_cons_of_mem c hmem), Utf8.encode_cons]

/-! The first character of a decoded path is the first one of the text, or that of an escape. -/

/-- An escape of two digits that is decoded. -/
structure IsEscape (a b c : Char) : Prop where
  notKept : ¬(a = '2' ∧ isKept b = true)
  value : ∃ x y, digitValue? a = some x ∧ digitValue? b = some y ∧ x * 16 + y = c.toNat

theorem scan_eq_nil {text : List Char} (h : scan text = []) : text = [] := by
  cases text with
  | nil => rfl
  | cons c rest =>
    by_cases hc : c = '%'
    · subst hc
      cases behind rest with
      | kept rest hb =>
        rw [scan_of_kept hb] at h
        cases h
      | digits rest hkept ha hb =>
        rw [scan_of_digits hkept ha hb] at h
        cases h
      | plain hkept hdigits =>
        rw [scan_of_no_digits hkept hdigits] at h
        cases h
    · rw [scan_cons hc] at h
      exact absurd (List.append_eq_nil_iff.mp h).1 String.utf8EncodeChar_ne_nil

theorem scan_eq_cons {text : List Char} {c : Char} {tail : List UInt8} (hc : c.toNat < 128)
    (hpercent : c ≠ '%') (h : scan text = UInt8.ofNat c.toNat :: tail) :
    ∃ rest, scan rest = tail ∧
      (text = c :: rest ∨ ∃ a b, IsEscape a b c ∧ text = '%' :: a :: b :: rest) := by
  have hbyte : (UInt8.ofNat c.toNat).toNat = c.toNat := by
    rw [UInt8.toNat_ofNat']
    omega
  have hne : UInt8.ofNat c.toNat ≠ 37 := by
    intro heq
    rw [heq] at hbyte
    exact hpercent (eq_of_toNat_eq hbyte.symm)
  cases text with
  | nil => cases h
  | cons d rest =>
    by_cases hd : d = '%'
    · subst hd
      cases behind rest with
      | kept rest hb =>
        rw [scan_of_kept hb] at h
        exact absurd (List.cons.inj h).1.symm hne
      | @digits a b x y rest hkept ha hb =>
        rw [scan_of_digits hkept ha hb] at h
        obtain ⟨hvalue, htail⟩ := List.cons.inj h
        refine ⟨rest, htail, .inr ⟨a, b, ⟨hkept, x, y, ha, hb, ?_⟩, rfl⟩⟩
        have hlt := (digitValue?_eq_some ha).1
        have hlt' := (digitValue?_eq_some hb).1
        rw [← hbyte, ← hvalue, UInt8.toNat_ofNat']
        omega
      | plain hkept hdigits =>
        rw [scan_of_no_digits hkept hdigits] at h
        exact absurd (List.cons.inj h).1.symm hne
    · rw [scan_cons hd] at h
      obtain ⟨b, bs, hbytes⟩ :=
        List.exists_cons_of_ne_nil (String.utf8EncodeChar_ne_nil (c := d))
      -- The byte is that of `c` in whatever character it stands.
      have hmem : UInt8.ofNat c.toNat ∈ String.utf8EncodeChar d := by
        rw [hbytes] at h ⊢
        rw [(List.cons.inj h).1]
        exact List.mem_cons_self
      obtain rfl := (Utf8.mem_utf8EncodeChar_iff hc).mp hmem
      rw [Utf8.utf8EncodeChar_of_lt hc] at h
      exact ⟨rest, (List.cons.inj h).2, .inl rfl⟩

/-- Only a text that begins with a slash is decoded to one that does. -/
theorem eq_cons_slash_of_decodePath {text tail : List Char}
    (h : decodePath text = .ok ('/' :: tail)) : ∃ rest, text = '/' :: rest := by
  rw [decodePath_eq_ok_iff] at h
  obtain ⟨rest, -, htext | ⟨a, b, hescape, -⟩⟩ :=
    scan_eq_cons (c := '/') (by decide) (by decide) h
  · exact ⟨rest, htext⟩
  · obtain ⟨x, y, ha, hb, hvalue⟩ := hescape.value
    refine absurd (kept_of_byte_eq_slash ha hb ?_) hescape.notKept
    rw [hvalue]
    rfl

theorem eq_nil_of_decodePath {text : List Char} (h : decodePath text = .ok []) : text = [] :=
  scan_eq_nil (decodePath_eq_ok_iff.mp h)

/-! The components of a path. -/

/-- What begins no escape is decoded on its own. -/
theorem decodePath_cons {c : Char} {rest out : List Char} (hc : c ≠ '%') :
    decodePath (c :: rest) = .ok out ↔ ∃ tail, out = c :: tail ∧ decodePath rest = .ok tail := by
  simp only [decodePath_eq_ok_iff, scan_cons hc]
  constructor
  · intro h
    have happend : Utf8.encode [c] ++ scan rest = Utf8.encode out := by
      rw [Utf8.encode_cons, List.append_assoc]
      exact h
    exact Utf8.eq_append_of_encode happend
  · rintro ⟨tail, rfl, htail⟩
    rw [htail, Utf8.encode_cons]

theorem decodePath_cons_slash {rest out : List Char} :
    decodePath ('/' :: rest) = .ok out ↔ ∃ tail, out = '/' :: tail ∧ decodePath rest = .ok tail :=
  decodePath_cons (by decide)

theorem decodePath_append_flatMap {raw : List Char} {segments : List (List Char)}
    {out : List Char} : decodePath (raw ++ segments.flatMap ('/' :: ·)) = .ok out ↔
      ∃ name rest, out = name ++ rest ∧ decodePath raw = .ok name ∧
        decodePath (segments.flatMap ('/' :: ·)) = .ok rest := by
  cases segments with
  | nil =>
    rw [List.flatMap_nil, List.append_nil, decodePath_nil]
    constructor
    · intro h
      exact ⟨out, [], (List.append_nil out).symm, h, rfl⟩
    · rintro ⟨name, rest, rfl, hname, hrest⟩
      cases hrest
      rw [List.append_nil]
      exact hname
  | cons segment segments =>
    rw [List.flatMap_cons, List.cons_append, decodePath_append_slash]
    constructor
    · rintro ⟨name, tail, rfl, hname, htail⟩
      exact ⟨name, '/' :: tail, rfl, hname, decodePath_cons_slash.mpr ⟨tail, rfl, htail⟩⟩
    · rintro ⟨name, rest, rfl, hname, hrest⟩
      obtain ⟨tail, rfl, htail⟩ := decodePath_cons_slash.mp hrest
      exact ⟨name, tail, rfl, hname, htail⟩

/-- The segments of a rooted path are decoded each on its own. -/
theorem decodePath_flatMap {segments : List (List Char)} {out : List Char} :
    decodePath (segments.flatMap ('/' :: ·)) = .ok out ↔ ∃ names,
      List.Forall₂ (fun raw name => decodePath raw = .ok name) segments names ∧
        out = names.flatMap ('/' :: ·) := by
  induction segments generalizing out with
  | nil =>
    rw [List.flatMap_nil, decodePath_nil]
    constructor
    · rintro ⟨⟩
      exact ⟨[], .nil, rfl⟩
    · rintro ⟨names, hnames, rfl⟩
      cases hnames
      rfl
  | cons raw segments ih =>
    rw [List.flatMap_cons, List.cons_append, decodePath_cons_slash]
    constructor
    · rintro ⟨tail, rfl, htail⟩
      obtain ⟨name, rest, rfl, hname, hrest⟩ := decodePath_append_flatMap.mp htail
      obtain ⟨names, hnames, rfl⟩ := ih.mp hrest
      exact ⟨name :: names, .cons hname hnames, rfl⟩
    · rintro ⟨names, hnames, rfl⟩
      cases hnames with
      | @cons _ name _ names hname hnames =>
        refine ⟨name ++ names.flatMap ('/' :: ·), rfl, ?_⟩
        exact decodePath_append_flatMap.mpr ⟨name, _, rfl, hname, ih.mpr ⟨names, hnames, rfl⟩⟩

end Percent

end MetaFs
