import Mathlib
import MetaFs.Proofs.DecodedPaths
import MetaFs.Proofs.SentPaths
/-! The names in a decoded path. The escapes of a slash and of a percent sign stay in it, so that
the components can be told from it; but a percent sign that begins no escape stays as well, and can
come to stand before digits. -/

namespace MetaFs.Percent

/-- The names of the components of a path, in which every escape stands for its byte. -/
def names (path : List Char) : List (List UInt8) := (path.splitOn '/').map decode

/-- A name with the escapes of a slash and of a percent sign taken out of it. -/
def unkept : List UInt8 → List UInt8
  | 37 :: 50 :: 70 :: rest => 47 :: unkept rest
  | 37 :: 50 :: 53 :: rest => 37 :: unkept rest
  | b :: rest => b :: unkept rest
  | [] => []

/-- The names that a decoded path tells. -/
def keptNames (path : List Char) : List (List UInt8) :=
  (path.splitOn '/').map fun name => unkept (Utf8.encode name)

/-- A text that makes no escape of the percent sign before it, but is decoded to one that begins
with the digits of an escape that stays. -/
structure Completes (text : List Char) : Prop where
  noDigits : ∀ a b rest, text = a :: b :: rest → digitValue? a = none ∨ digitValue? b = none
  digits : [50, 70] <+: scan text ∨ [50, 53] <+: scan text

/-- A percent sign in the text comes to begin an escape. -/
def Ambiguous (text : List Char) : Prop := ∃ rest, '%' :: rest <:+ text ∧ Completes rest

/-- A path with an ambiguous component. -/
def Misread (path : List Char) : Prop := ∃ part ∈ path.splitOn '/', Ambiguous part

theorem not_ambiguous_nil : ¬Ambiguous [] := by
  rintro ⟨rest, hsuffix, -⟩
  cases List.suffix_nil.mp hsuffix

theorem ambiguous_cons {c : Char} {text : List Char} :
    Ambiguous (c :: text) ↔ c = '%' ∧ Completes text ∨ Ambiguous text := by
  constructor
  · rintro ⟨rest, hsuffix, hrest⟩
    rcases List.suffix_cons_iff.mp hsuffix with heq | hsuffix
    · obtain ⟨rfl, rfl⟩ := List.cons.inj heq
      exact .inl ⟨rfl, hrest⟩
    · exact .inr ⟨rest, hsuffix, hrest⟩
  · rintro (⟨rfl, htext⟩ | ⟨rest, hsuffix, hrest⟩)
    · exact ⟨text, List.suffix_refl _, htext⟩
    · exact ⟨rest, hsuffix.trans (List.suffix_cons c text), hrest⟩

/-- Only percent signs without two digits behind them count. -/
theorem ambiguous_escape {a b : Char} {x y : ℕ} {rest : List Char} (ha : digitValue? a = some x)
    (hb : digitValue? b = some y) : Ambiguous ('%' :: a :: b :: rest) ↔ Ambiguous rest := by
  have hcompletes : ¬Completes (a :: b :: rest) := by
    intro h
    rcases h.noDigits a b rest rfl with hnone | hnone
    · cases ha.symm.trans hnone
    · cases hb.symm.trans hnone
  rw [ambiguous_cons, ambiguous_cons, ambiguous_cons]
  simp [hcompletes, ne_percent_of_digit ha, ne_percent_of_digit hb]

theorem unkept_cons {b : UInt8} (h : b ≠ 37) (rest : List UInt8) :
    unkept (b :: rest) = b :: unkept rest := by
  rw [unkept] <;> simp [h]

theorem unkept_append {bytes : List UInt8} (h : 37 ∉ bytes) (rest : List UInt8) :
    unkept (bytes ++ rest) = bytes ++ unkept rest := by
  induction bytes with
  | nil => rfl
  | cons b bytes ih =>
    have hb : b ≠ 37 := fun hb => h (hb ▸ List.mem_cons_self)
    rw [List.cons_append, unkept_cons hb, ih fun hmem => h (List.mem_cons_of_mem b hmem)]
    rfl

theorem unkept_percent {rest : List UInt8} (hslash : ¬[50, 70] <+: rest)
    (hpercent : ¬[50, 53] <+: rest) : unkept (37 :: rest) = 37 :: unkept rest := by
  rw [unkept]
  · rintro tail - rfl
    exact hslash ⟨tail, rfl⟩
  · rintro tail - rfl
    exact hpercent ⟨tail, rfl⟩

theorem kept_of_byte_eq_percent {a b : Char} {x y : ℕ} (ha : digitValue? a = some x)
    (hb : digitValue? b = some y) (h : UInt8.ofNat (x * 16 + y) = 37) :
    a = '2' ∧ isKept b = true := by
  obtain ⟨hx, hax⟩ := digitValue?_eq_some ha
  obtain ⟨hy, hby⟩ := digitValue?_eq_some hb
  have hnat : x * 16 + y = 37 := value_of_byte hx hy h
  have ha2 : a = '2' := eq_of_toNat_eq (show a.toNat = 50 by omega)
  have hb5 : b = '5' := eq_of_toNat_eq (show b.toNat = 53 by omega)
  exact ⟨ha2, hb5 ▸ rfl⟩

/-- A digit that comes out of decoding was there or was escaped. -/
theorem exists_of_scan_eq_cons {text : List Char} {c : Char} {tail : List UInt8}
    (hc : c.toNat < 128) (hpercent : c ≠ '%') (h : scan text = UInt8.ofNat c.toNat :: tail) :
    ∃ rest, scan rest = tail ∧ decode text = UInt8.ofNat c.toNat :: decode rest ∧
      rest.length < text.length := by
  obtain ⟨rest, hrest, rfl | ⟨a, b, hescape, rfl⟩⟩ := scan_eq_cons hc hpercent h
  · refine ⟨rest, hrest, ?_, Nat.lt_succ_self _⟩
    rw [decode_cons hpercent, Utf8.utf8EncodeChar_of_lt hc]
    rfl
  · obtain ⟨x, y, ha, hb, hvalue⟩ := hescape.value
    refine ⟨rest, hrest, by rw [decode_of_digits ha hb, hvalue], ?_⟩
    simp only [List.length_cons]
    omega

theorem Completes.exists_tail {text : List Char} (h : Completes text) :
    ∃ rest, rest.length < text.length ∧
      (unkept (37 :: scan text)).length = (unkept (scan rest)).length + 1 ∧
      (decode text).length = (decode rest).length + 2 := by
  obtain ⟨c, bytes, hc, hscan⟩ : ∃ c bytes, (c = 'F' ∨ c = '5') ∧
      scan text = UInt8.ofNat '2'.toNat :: UInt8.ofNat c.toNat :: bytes := by
    rcases h.digits with ⟨bytes, hscan⟩ | ⟨bytes, hscan⟩
    · exact ⟨'F', bytes, .inl rfl, hscan.symm⟩
    · exact ⟨'5', bytes, .inr rfl, hscan.symm⟩
  obtain ⟨next, hnext, htwo, hshorter⟩ := exists_of_scan_eq_cons (by decide) (by decide) hscan
  have hascii : c.toNat < 128 ∧ c ≠ '%' := by rcases hc with rfl | rfl <;> decide
  obtain ⟨rest, rfl, hlast, hshort⟩ := exists_of_scan_eq_cons hascii.1 hascii.2 hnext
  refine ⟨rest, hshort.trans hshorter, ?_, ?_⟩
  · rw [hscan]
    rcases hc with rfl | rfl <;> rfl
  · rw [htwo, hlast]
    rfl

/-- The escapes that stay tell the name, unless one of them has come about by decoding. Each one
that did makes the name that is told shorter by two bytes. -/
theorem unkept_scan (text : List Char) :
    ¬Ambiguous text ∧ unkept (scan text) = decode text ∨
      Ambiguous text ∧ (unkept (scan text)).length < (decode text).length := by
  match text with
  | [] => exact .inl ⟨not_ambiguous_nil, rfl⟩
  | c :: rest =>
    by_cases hc : c = '%'
    · subst hc
      cases behind rest with
      | @kept b rest hb =>
        obtain ⟨y, hy⟩ := digitValue?_of_isKept hb
        have hescape : unkept (Utf8.encode ['%', '2', b.toUpper] ++ scan rest) =
            UInt8.ofNat (2 * 16 + y) :: unkept (scan rest) := by
          rcases isKept_iff.mp hb with rfl | rfl | rfl <;> cases hy <;> rfl
        rw [ambiguous_escape (x := 2) rfl hy, scan_of_kept hb, decode_of_digits (x := 2) rfl hy,
          hescape]
        simpa using unkept_scan rest
      | @digits a b x y rest hkept ha hb =>
        have hbyte : UInt8.ofNat (x * 16 + y) ≠ 37 := fun h =>
          hkept (kept_of_byte_eq_percent ha hb h)
        rw [ambiguous_escape ha hb, scan_of_digits hkept ha hb, decode_of_digits ha hb,
          unkept_cons hbyte]
        simpa using unkept_scan rest
      | plain hkept hdigits =>
        rw [ambiguous_cons, scan_of_no_digits hkept hdigits, decode_of_no_digits hdigits]
        by_cases hrest : Completes rest
        · obtain ⟨tail, htail, hunkept, hdecoded⟩ := hrest.exists_tail
          refine .inr ⟨.inl ⟨rfl, hrest⟩, ?_⟩
          rw [List.length_cons, hunkept, hdecoded]
          rcases unkept_scan tail with ⟨-, hsame⟩ | ⟨-, hless⟩
          · rw [hsame]
            omega
          · omega
        · have hslash : ¬[50, 70] <+: scan rest := fun h => hrest ⟨hdigits, .inl h⟩
          have hpercent : ¬[50, 53] <+: scan rest := fun h => hrest ⟨hdigits, .inr h⟩
          rw [unkept_percent hslash hpercent]
          simpa [hrest] using unkept_scan rest
    · have hbytes : 37 ∉ String.utf8EncodeChar c := fun hmem =>
        hc ((Utf8.mem_utf8EncodeChar_iff (c := '%') (by decide)).mp hmem)
      rw [ambiguous_cons, scan_cons hc, decode_cons hc, unkept_append hbytes]
      simpa [hc] using unkept_scan rest
termination_by text.length

theorem unkept_scan_iff {text : List Char} :
    unkept (scan text) = decode text ↔ ¬Ambiguous text := by
  rcases unkept_scan text with ⟨hnot, hsame⟩ | ⟨hambiguous, hless⟩
  · exact iff_of_true hsame hnot
  · refine iff_of_false (fun hsame => ?_) (not_not_intro hambiguous)
    rw [hsame] at hless
    exact absurd hless (lt_irrefl _)

/-- A decoded path tells the names of the path exactly if nothing in it is taken for an escape. -/
theorem names_eq_keptNames_iff {raw out : List Char} (h : decodePath raw = .ok out) :
    names raw = keptNames out ↔ ¬Misread raw := by
  have hparts := decodePath_splitOn.mp h
  rw [names, keptNames, Misread]
  generalize raw.splitOn '/' = parts at hparts ⊢
  generalize out.splitOn '/' = names at hparts ⊢
  clear h
  induction hparts with
  | nil => simp
  | @cons part name parts rest hpart hparts ih =>
    have hsame : unkept (Utf8.encode name) = decode part ↔ ¬Ambiguous part := by
      rw [← decodePath_eq_ok_iff.mp hpart]
      exact unkept_scan_iff
    rw [List.map_cons, List.map_cons, List.cons.injEq, List.exists_mem_cons_iff, not_or]
    exact and_congr (eq_comm.trans hsame) ih

/-- A path for names that are told with escapes: those that stay are kept, percent signs are left
alone, and everything else is escaped. -/
def reencode : List Char → List Char
  | '%' :: '2' :: 'F' :: rest => '%' :: '2' :: 'F' :: reencode rest
  | '%' :: '2' :: '5' :: rest => '%' :: '2' :: '5' :: reencode rest
  | '%' :: rest => '%' :: reencode rest
  | c :: rest => (String.utf8EncodeChar c).flatMap escape ++ reencode rest
  | [] => []

theorem decode_escape (b : UInt8) (rest : List Char) :
    decode (escape b ++ rest) = b :: decode rest := by
  have hhigh : b.toNat / 16 < 16 := by
    have hb := b.toNat_lt
    omega
  have hlow : b.toNat % 16 < 16 := Nat.mod_lt _ (by omega)
  show decode ('%' :: upperDigit (b.toNat / 16) :: upperDigit (b.toNat % 16) :: rest) = _
  rw [decode_of_digits (digitValue?_upperDigit hhigh) (digitValue?_upperDigit hlow),
    Nat.div_add_mod', UInt8.ofNat_toNat]

theorem decode_escapes (bytes : List UInt8) (rest : List Char) :
    decode (bytes.flatMap escape ++ rest) = bytes ++ decode rest := by
  induction bytes with
  | nil => rfl
  | cons b bytes ih =>
    rw [List.flatMap_cons, List.append_assoc, decode_escape, ih]
    rfl

theorem reencode_eq (text : List Char) :
    reencode text = [] ∨ ∃ tail, reencode text = '%' :: tail := by
  fun_cases reencode text with
  | case5 => exact .inl rfl
  | case4 c rest =>
    obtain ⟨b, bytes, hbytes⟩ := List.exists_cons_of_ne_nil (String.utf8EncodeChar_ne_nil (c := c))
    rw [hbytes]
    exact .inr ⟨_, rfl⟩
  | _ => exact .inr ⟨_, rfl⟩

/-- A percent sign that is left alone is not followed by digits. -/
theorem no_digits_reencode (text : List Char) (a b : Char) (rest : List Char)
    (h : reencode text = a :: b :: rest) : digitValue? a = none ∨ digitValue? b = none := by
  rcases reencode_eq text with hnil | ⟨tail, hcons⟩
  · cases hnil.symm.trans h
  · obtain ⟨rfl, -⟩ := List.cons.inj (hcons.symm.trans h)
    exact .inl rfl

theorem slash_notMem_escapes (bytes : List UInt8) : '/' ∉ bytes.flatMap escape := by
  rw [List.mem_flatMap]
  rintro ⟨b, -, hb⟩
  exact absurd (Url.mem_escape hb) (by decide)

/-- The path is decoded to what it was made from, and stands for the name that is told there. -/
theorem reencode_spec (name : List Char) (h : '/' ∉ name) :
    '/' ∉ reencode name ∧ scan (reencode name) = Utf8.encode name ∧
      decode (reencode name) = unkept (Utf8.encode name) := by
  fun_induction reencode name with
  | case1 rest ih =>
    obtain ⟨hslash, hscan, hdecode⟩ := ih fun hmem => h (by simp [hmem])
    refine ⟨by simp [hslash], ?_, ?_⟩
    · rw [scan_of_kept rfl, hscan]
      rfl
    · rw [decode_of_digits (x := 2) (y := 15) rfl rfl, hdecode]
      rfl
  | case2 rest ih =>
    obtain ⟨hslash, hscan, hdecode⟩ := ih fun hmem => h (by simp [hmem])
    refine ⟨by simp [hslash], ?_, ?_⟩
    · rw [scan_of_kept rfl, hscan]
      rfl
    · rw [decode_of_digits (x := 2) (y := 5) rfl rfl, hdecode]
      rfl
  | case3 rest hfirst hsecond ih =>
    obtain ⟨hslash, hscan, hdecode⟩ := ih fun hmem => h (by simp [hmem])
    have hdigits := no_digits_reencode rest
    have hkept : ¬∃ b tail, reencode rest = '2' :: b :: tail ∧ isKept b = true := by
      rintro ⟨b, tail, heq, hb⟩
      obtain ⟨y, hy⟩ := digitValue?_of_isKept hb
      rcases hdigits _ _ _ heq with hnone | hnone
      · cases hnone
      · cases hy.symm.trans hnone
    refine ⟨by simp [hslash], ?_, ?_⟩
    · rw [scan_of_no_digits hkept hdigits, hscan]
      rfl
    · rw [decode_of_no_digits hdigits, hdecode, Utf8.encode_cons]
      refine (unkept_percent ?_ ?_).symm
      · rintro ⟨bytes, hbytes⟩
        obtain ⟨text, rfl, htext⟩ := eq_cons_of_encode (c := '2') (by decide) hbytes.symm
        obtain ⟨tail, rfl, -⟩ := eq_cons_of_encode (c := 'F') (by decide) htext.symm
        exact hfirst tail rfl
      · rintro ⟨bytes, hbytes⟩
        obtain ⟨text, rfl, htext⟩ := eq_cons_of_encode (c := '2') (by decide) hbytes.symm
        obtain ⟨tail, rfl, -⟩ := eq_cons_of_encode (c := '5') (by decide) htext.symm
        exact hsecond tail rfl
  | case4 c rest hfirst hsecond hc ih =>
    obtain ⟨hslash, hscan, hdecode⟩ := ih fun hmem => h (by simp [hmem])
    have hbytes : ∀ b ∈ String.utf8EncodeChar c, b ≠ 47 ∧ b ≠ 37 := by
      intro b hb
      constructor
      · rintro rfl
        obtain rfl := (Utf8.mem_utf8EncodeChar_iff (c := '/') (by decide)).mp hb
        exact h List.mem_cons_self
      · rintro rfl
        exact hc ((Utf8.mem_utf8EncodeChar_iff (c := '%') (by decide)).mp hb)
    refine ⟨?_, ?_, ?_⟩
    · exact List.not_mem_append (slash_notMem_escapes _) hslash
    · rw [scan_escapes hbytes, hscan, Utf8.encode_cons]
    · have hpercent : 37 ∉ String.utf8EncodeChar c := fun hmem => (hbytes 37 hmem).2 rfl
      rw [decode_escapes, hdecode, Utf8.encode_cons, unkept_append hpercent]
  | case5 => exact ⟨h, rfl, rfl⟩

/-- Every text is what some path is decoded to that stands for the names that are told there. -/
theorem exists_decodePath_eq_ok (out : List Char) :
    ∃ other, decodePath other = .ok out ∧ names other = keptNames out := by
  have hundivided : ∀ name ∈ out.splitOn '/', '/' ∉ name := by
    intro name hname hmem
    rw [← Url.parts_eq_splitOn] at hname
    cases (Url.mem_of_mem_parts hname hmem).1
  have hsplit : (['/'].intercalate ((out.splitOn '/').map reencode)).splitOn '/' =
      (out.splitOn '/').map reencode := by
    apply List.splitOn_intercalate
    · intro part hpart
      obtain ⟨name, hname, rfl⟩ := List.mem_map.mp hpart
      exact (reencode_spec name (hundivided name hname)).1
    · simp [List.splitOn_ne_nil]
  refine ⟨['/'].intercalate ((out.splitOn '/').map reencode), decodePath_splitOn.mpr ?_, ?_⟩
  · rw [hsplit, List.forall₂_map_left_iff, List.forall₂_same]
    intro name hname
    exact decodePath_eq_ok_iff.mpr (reencode_spec name (hundivided name hname)).2.1
  · rw [names, hsplit, List.map_map]
    exact List.map_congr_left fun name hname => (reencode_spec name (hundivided name hname)).2.2

/-- Paths that are decoded to the same one have as many components, and these have the same names
unless a percent sign has come to begin an escape in one of the paths. Each path in which one has
is decoded like a path with other names. -/
theorem names_eq_of_decodePath {raw raw' out : List Char} (h : decodePath raw = .ok out)
    (h' : decodePath raw' = .ok out) :
    (raw.splitOn '/').length = (raw'.splitOn '/').length ∧
    (¬Misread raw → ¬Misread raw' → names raw = names raw') ∧
    (Misread raw → ∃ other, ¬Misread other ∧ decodePath other = .ok out ∧
      names other ≠ names raw) := by
  refine ⟨?_, fun hraw hraw' => ?_, fun hmisread => ?_⟩
  · exact (decodePath_splitOn.mp h).length_eq.trans (decodePath_splitOn.mp h').length_eq.symm
  · exact ((names_eq_keptNames_iff h).mpr hraw).trans ((names_eq_keptNames_iff h').mpr hraw').symm
  · obtain ⟨other, hother, hnames⟩ := exists_decodePath_eq_ok out
    refine ⟨other, (names_eq_keptNames_iff hother).mp hnames, hother, fun hsame => ?_⟩
    exact (names_eq_keptNames_iff h).mp (hsame.symm.trans hnames) hmisread

theorem names_eq_of_decodePath_mixed :
    decodePath "/%61%2fb%".toList = .ok "/a%2Fb%".toList ∧
    decodePath "/a%2F%62%".toList = .ok "/a%2Fb%".toList ∧
    names "/%61%2fb%".toList = names "/a%2F%62%".toList := by
  have h : decodePath "/%61%2fb%".toList = .ok "/a%2Fb%".toList :=
    decodePath_eq_ok_iff.mpr (by decide +kernel)
  have h' : decodePath "/a%2F%62%".toList = .ok "/a%2Fb%".toList :=
    decodePath_eq_ok_iff.mpr (by decide +kernel)
  have hraw : ¬Misread "/%61%2fb%".toList := (names_eq_keptNames_iff h).mp (by decide +kernel)
  have hraw' : ¬Misread "/a%2F%62%".toList := (names_eq_keptNames_iff h').mp (by decide +kernel)
  exact ⟨h, h', (names_eq_of_decodePath h h').2.1 hraw hraw'⟩

/-- A name that begins with a percent sign and the escape of a digit is sent like a slash in a
name. -/
theorem sends_percents :
    ((Settings.connect { nameNode := some "nn" } "alice" Session.scripted).run.run
      Session.openingReplies).1 = .ok Session.openedSession ∧
    decodePath "/%%32F".toList = .ok "/%2F".toList ∧
    decodePath "/%2F".toList = .ok "/%2F".toList ∧
    names "/%%32F".toList ≠ names "/%2F".toList ∧
    ∀ given ∈ ["/%%32F", "/%2F"],
      ((Session.Act.stat given).run Session.openedSession Session.scripted.noting).run.run
        ([], []) = (.error ⟨.io, "stat(/%2F): connection reset", none⟩, [],
          [⟨.getFileInfo "/%2F", .error ⟨.io, "connection reset", none⟩⟩]) := by
  refine ⟨Session.connect_opening, decodePath_eq_ok_iff.mpr (by decide +kernel),
    decodePath_eq_ok_iff.mpr (by decide +kernel), by decide +kernel, fun given hgiven => ?_⟩
  rcases List.mem_pair.mp hgiven with rfl | rfl <;> cbv

end MetaFs.Percent
