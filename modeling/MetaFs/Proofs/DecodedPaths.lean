import Mathlib
import MetaFs.Proofs.FollowedPaths
/-! Decoding a path by byte positions. The escapes that stay are searched among the bytes of a
text, and the text is cut where they are found, which is never within a character. -/

namespace MetaFs.Percent

/-- The position of the first escape that stays, searched byte by byte. -/
def keptAt? : List UInt8 → Option ℕ
  | a :: b :: c :: rest =>
    if a = 37 ∧ b = 50 ∧ (c = 70 ∨ c = 102 ∨ c = 53) then some 0
    else (keptAt? (b :: c :: rest)).map (· + 1)
  | _ => none

section Search

variable {a b c : UInt8} {rest : List UInt8}

theorem keptAt?_cons (h : ∀ b c tail, rest = b :: c :: tail →
    ¬(a = 37 ∧ b = 50 ∧ (c = 70 ∨ c = 102 ∨ c = 53))) :
    keptAt? (a :: rest) = (keptAt? rest).map (· + 1) := by
  match rest with
  | [] => rfl
  | [b] => rfl
  | b :: c :: tail => rw [keptAt?, if_neg (h b c tail rfl)]

theorem keptAt?_append {bytes : List UInt8} (h : 37 ∉ bytes) (rest : List UInt8) :
    keptAt? (bytes ++ rest) = (keptAt? rest).map (· + bytes.length) := by
  induction bytes with
  | nil => simp
  | cons a bytes ih =>
    have ha : a ≠ 37 := fun ha => h (ha ▸ List.mem_cons_self)
    have hbytes : 37 ∉ bytes := fun hmem => h (List.mem_cons_of_mem a hmem)
    have hstep : keptAt? (a :: (bytes ++ rest)) = (keptAt? (bytes ++ rest)).map (· + 1) :=
      keptAt?_cons fun _ _ _ _ hkept => ha hkept.1
    rw [List.cons_append, hstep, ih hbytes, Option.map_map]
    rfl

end Search

theorem isKept_iff {d : Char} : isKept d = true ↔ d = 'F' ∨ d = 'f' ∨ d = '5' := by
  simp [isKept, or_assoc]

/-- An ASCII byte at the front of a text is its first character. -/
theorem eq_cons_of_encode {c : Char} {text : List Char} {bytes : List UInt8} (hc : c.toNat < 128)
    (h : Utf8.encode text = UInt8.ofNat c.toNat :: bytes) :
    ∃ rest, text = c :: rest ∧ bytes = Utf8.encode rest := by
  have hfront : Utf8.encode [c] ++ bytes = Utf8.encode text := by
    rw [h, Utf8.encode_cons, Utf8.utf8EncodeChar_of_lt hc]
    rfl
  exact Utf8.eq_append_of_encode hfront

/-- The bytes of an escape that stays are those of its characters. -/
theorem exists_of_kept_bytes {text : List Char} {c : UInt8} {tail : List UInt8}
    (h : Utf8.encode text = 50 :: c :: tail) (hc : c = 70 ∨ c = 102 ∨ c = 53) :
    ∃ d rest, text = '2' :: d :: rest ∧ isKept d = true := by
  obtain ⟨text, rfl, htext⟩ := eq_cons_of_encode (c := '2') (by decide) h
  rcases hc with rfl | rfl | rfl
  · obtain ⟨rest, rfl, -⟩ := eq_cons_of_encode (c := 'F') (by decide) htext.symm
    exact ⟨'F', rest, rfl, rfl⟩
  · obtain ⟨rest, rfl, -⟩ := eq_cons_of_encode (c := 'f') (by decide) htext.symm
    exact ⟨'f', rest, rfl, rfl⟩
  · obtain ⟨rest, rfl, -⟩ := eq_cons_of_encode (c := '5') (by decide) htext.symm
    exact ⟨'5', rest, rfl, rfl⟩

theorem keptAt?_of_kept {d : Char} {rest : List Char} (h : isKept d = true) :
    keptAt? (Utf8.encode ('%' :: '2' :: d :: rest)) = some 0 := by
  rcases isKept_iff.mp h with rfl | rfl | rfl <;> rfl

/-- A text is cut at the position that the search over its bytes finds, or not at all. -/
inductive Cut (text : List Char) : Prop where
  | whole (hsearch : keptAt? (Utf8.encode text) = none) (hpieces : pieces text = (text, []))
  | at (front : List Char) (d : Char) (rest : List Char) (hkept : isKept d = true)
      (htext : text = front ++ '%' :: '2' :: d :: rest)
      (hsearch : keptAt? (Utf8.encode text) = some (Utf8.encode front).length)
      (hpieces : pieces text = (front, (['2', d.toUpper], (pieces rest).1) :: (pieces rest).2))

/-- A character before the cut goes to the front, whatever its bytes. -/
theorem Cut.cons {c : Char} {text : List Char} (h : Cut text)
    (hsearch : keptAt? (Utf8.encode (c :: text)) =
      (keptAt? (Utf8.encode text)).map (· + (String.utf8EncodeChar c).length))
    (hpieces : pieces (c :: text) = (c :: (pieces text).1, (pieces text).2)) :
    Cut (c :: text) := by
  cases h with
  | whole hnone hwhole =>
    refine .whole ?_ ?_
    · rw [hsearch, hnone]
      rfl
    · rw [hpieces, hwhole]
  | «at» front d rest hkept htext hsome hfront =>
    refine .at (c :: front) d rest hkept ?_ ?_ ?_
    · rw [htext]
      rfl
    · rw [hsearch, hsome, Option.map_some, Utf8.encode_cons, List.length_append, Nat.add_comm]
    · rw [hpieces, hfront]

theorem cut (text : List Char) : Cut text := by
  induction text with
  | nil => exact .whole rfl rfl
  | cons c text ih =>
    by_cases hc : c = '%'
    · subst hc
      by_cases hkept : ∃ d rest, text = '2' :: d :: rest ∧ isKept d = true
      · obtain ⟨d, rest, rfl, hd⟩ := hkept
        exact .at [] d rest hd rfl (keptAt?_of_kept hd) (pieces_of_kept hd)
      · refine ih.cons ?_ (pieces_of_not_kept hkept)
        apply keptAt?_cons
        rintro b e tail hbytes ⟨-, rfl, he⟩
        exact hkept (exists_of_kept_bytes hbytes he)
    · refine ih.cons (keptAt?_append (fun hmem => hc ?_) _) (pieces_cons hc)
      exact (Utf8.mem_utf8EncodeChar_iff (c := '%') (by decide)).mp hmem

theorem decodePath_of_whole {text : List Char} (h : pieces text = (text, [])) :
    decodePath text = Utf8.decode (decode text) := by
  rw [decodePath_eq, h]
  cases Utf8.decode (decode text) with
  | error e => rfl
  | ok out => exact congrArg Except.ok (List.append_nil out)

/-- What is before the cut is decoded first, and what is behind it like a path of its own. -/
theorem decodePath_of_cut {text front digits rest : List Char}
    (h : pieces text = (front, (digits, (pieces rest).1) :: (pieces rest).2)) :
    decodePath text = do
      let head ← Utf8.decode (decode front)
      let tail ← decodePath rest
      return head ++ '%' :: (digits ++ tail) := by
  rw [decodePath_eq, decodePath_eq rest, h, List.mapM_cons, decodePart]
  cases Utf8.decode (decode front) with
  | error e => rfl
  | ok head =>
    cases Utf8.decode (decode (pieces rest).1) with
    | error e => rfl
    | ok next =>
      cases (pieces rest).2.mapM decodePart with
      | error e => rfl
      | ok parts => simp [bind, Except.bind, pure, Except.pure]

/-- The components of a decoded path are those of the path, decoded one for one. -/
theorem decodePath_splitOn {raw out : List Char} : decodePath raw = .ok out ↔
    List.Forall₂ (fun part name => decodePath part = .ok name)
      (raw.splitOn '/') (out.splitOn '/') := by
  have hslash : decodePath raw = .ok out ↔ decodePath ('/' :: raw) = .ok ('/' :: out) := by
    simp [decodePath_cons_slash]
  rw [hslash, ← Url.parts_eq_splitOn, ← Url.parts_eq_splitOn, ← Url.flatMap_parts raw,
    decodePath_flatMap]
  constructor
  · rintro ⟨names, hnames, hout⟩
    rwa [Url.eq_parts_of_decodePath hnames (fun part hpart hmem => ?_) hout] at hnames
    cases (Url.mem_of_mem_parts hpart hmem).1
  · intro hnames
    exact ⟨_, hnames, (Url.flatMap_parts out).symm⟩

/-- A path is decoded to the text of one pass over it, where these bytes are text. It is worked on
from cut to cut, each of which is between two characters; its components come out one for one. -/
theorem decodePath_one_pass (raw : List Char) :
    (decodePath raw).toOption = (Utf8.decode (scan raw)).toOption ∧
    (keptAt? (Utf8.encode raw) = none → decodePath raw = Utf8.decode (decode raw)) ∧
    (∀ n, keptAt? (Utf8.encode raw) = some n → ∃ front d rest,
      raw = front ++ '%' :: '2' :: d :: rest ∧ (Utf8.encode front).length = n ∧
      decodePath raw = do
        let head ← Utf8.decode (decode front)
        let tail ← decodePath rest
        return head ++ '%' :: '2' :: d.toUpper :: tail) ∧
    ∀ out, decodePath raw = .ok out ↔
      List.Forall₂ (fun part name => decodePath part = .ok name)
        (raw.splitOn '/') (out.splitOn '/') := by
  refine ⟨?_, fun hnone => ?_, fun n hn => ?_, fun out => decodePath_splitOn⟩
  · have hsame (out : List Char) : decodePath raw = .ok out ↔ Utf8.decode (scan raw) = .ok out :=
      decodePath_eq_ok_iff.trans Utf8.decode_eq_ok_iff.symm
    cases hdecoded : decodePath raw with
    | ok out => rw [(hsame out).mp hdecoded]
    | error e =>
      cases hscan : Utf8.decode (scan raw) with
      | ok out => cases hdecoded.symm.trans ((hsame out).mpr hscan)
      | error e' => rfl
  · cases cut raw with
    | whole _ hpieces => exact decodePath_of_whole hpieces
    | «at» front d rest hkept htext hsearch hpieces =>
      rw [hnone] at hsearch
      cases hsearch
  · cases cut raw with
    | whole hsearch hpieces =>
      rw [hn] at hsearch
      cases hsearch
    | «at» front d rest hkept htext hsearch hpieces =>
      rw [hn] at hsearch
      refine ⟨front, d, rest, htext, (Option.some.inj hsearch).symm, ?_⟩
      exact decodePath_of_cut hpieces

end MetaFs.Percent
