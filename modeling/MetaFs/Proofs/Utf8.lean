import Mathlib
import MetaFs.Utf8
/-! UTF-8 reading and writing are inverse to each other. The reader looks at ranges of bytes and the
writer at ranges of code points; both are compared as numbers. -/
namespace MetaFs.Utf8

theorem width_eq (b : UInt8) :
    width b = if b.toNat < 0x80 then 1 else if b.toNat < 0xC2 then 0
      else if b.toNat < 0xE0 then 2 else if b.toNat < 0xF0 then 3
      else if b.toNat < 0xF5 then 4 else 0 := by
  simp only [width, UInt8.lt_iff_toNat_lt, UInt8.reduceToNat]

theorem secondFits_iff (a b : UInt8) :
    secondFits a b = true ↔ 0x80 ≤ b.toNat ∧ b.toNat ≤ 0xBF ∧
      (a.toNat = 0xE0 → 0xA0 ≤ b.toNat) ∧ (a.toNat = 0xF0 → 0x90 ≤ b.toNat) ∧
      (a.toNat = 0xED → b.toNat ≤ 0x9F) ∧ (a.toNat = 0xF4 → b.toNat ≤ 0x8F) := by
  simp only [secondFits, Bool.and_eq_true, decide_eq_true_eq, UInt8.le_iff_toNat_le,
    ← UInt8.toNat_inj, UInt8.reduceToNat, apply_ite UInt8.toNat]
  split_ifs <;> omega

theorem isContinuation_iff (b : UInt8) :
    isContinuation b = true ↔ 0x80 ≤ b.toNat ∧ b.toNat ≤ 0xBF := by
  simp only [isContinuation, Bool.and_eq_true, decide_eq_true_eq, UInt8.le_iff_toNat_le,
    UInt8.reduceToNat]

theorem toNat_ofNat_of_valid {n : Nat} (h : n.isValidChar) : (Char.ofNat n).toNat = n := by
  simp only [Char.ofNat, h, dif_pos]
  rfl

theorem char_valid (c : Char) : c.toNat < 0xD800 ∨ 0xDFFF < c.toNat ∧ c.toNat < 0x110000 :=
  c.valid

theorem width_eq_one {b : UInt8} : width b = 1 ↔ b.toNat < 0x80 := by
  rw [width_eq]; split_ifs <;> simp <;> omega

theorem width_eq_two {b : UInt8} : width b = 2 ↔ 0xC2 ≤ b.toNat ∧ b.toNat < 0xE0 := by
  rw [width_eq]; split_ifs <;> simp <;> omega

theorem width_eq_three {b : UInt8} : width b = 3 ↔ 0xE0 ≤ b.toNat ∧ b.toNat < 0xF0 := by
  rw [width_eq]; split_ifs <;> simp <;> omega

theorem width_eq_four {b : UInt8} : width b = 4 ↔ 0xF0 ≤ b.toNat ∧ b.toNat < 0xF5 := by
  rw [width_eq]; split_ifs <;> simp <;> omega

theorem front_utf8EncodeChar {c : Char} {b : UInt8} {bs : List UInt8} (rest : List UInt8)
    (h : String.utf8EncodeChar c = b :: bs) :
    front b (bs ++ rest) = .character c (bs.length + 1) := by
  have hv := char_valid c
  have hc : c.val.toNat = c.toNat := rfl
  have hself (n : Nat) (hn : n = c.toNat) : Char.ofNat n = c := by rw [hn, Char.ofNat_toNat]
  simp only [String.utf8EncodeChar, hc] at h
  split_ifs at h with h1 h2 h3 <;> obtain ⟨rfl, rfl⟩ := List.cons.inj h
  · have hw : width (UInt8.ofNat c.toNat) = 1 := by
      rw [width_eq_one, UInt8.toNat_ofNat']; omega
    simp only [front, hw, List.length_nil]
    rw [hself _ (by rw [UInt8.toNat_ofNat']; omega)]
  · have hw : width (UInt8.ofNat (c.toNat / 64 % 32 + 192)) = 2 := by
      rw [width_eq_two, UInt8.toNat_ofNat']; omega
    have hs : secondFits (UInt8.ofNat (c.toNat / 64 % 32 + 192))
        (UInt8.ofNat (c.toNat % 64 + 128)) = true := by
      rw [secondFits_iff, UInt8.toNat_ofNat', UInt8.toNat_ofNat']; omega
    simp only [front, hw, List.cons_append, hs, if_true, List.length_cons, List.length_nil]
    rw [hself _ (by simp only [payload, UInt8.toNat_ofNat']; omega)]
  · have hw : width (UInt8.ofNat (c.toNat / 4096 % 16 + 224)) = 3 := by
      rw [width_eq_three, UInt8.toNat_ofNat']; omega
    have hs : secondFits (UInt8.ofNat (c.toNat / 4096 % 16 + 224))
        (UInt8.ofNat (c.toNat / 64 % 64 + 128)) = true := by
      rw [secondFits_iff, UInt8.toNat_ofNat', UInt8.toNat_ofNat']; omega
    have ht : isContinuation (UInt8.ofNat (c.toNat % 64 + 128)) = true := by
      rw [isContinuation_iff, UInt8.toNat_ofNat']; omega
    simp only [front, hw, List.cons_append, hs, ht, if_true, List.length_cons, List.length_nil]
    rw [hself _ (by simp only [payload, UInt8.toNat_ofNat']; omega)]
  · have hw : width (UInt8.ofNat (c.toNat / 262144 % 8 + 240)) = 4 := by
      rw [width_eq_four, UInt8.toNat_ofNat']; omega
    have hs : secondFits (UInt8.ofNat (c.toNat / 262144 % 8 + 240))
        (UInt8.ofNat (c.toNat / 4096 % 64 + 128)) = true := by
      rw [secondFits_iff, UInt8.toNat_ofNat', UInt8.toNat_ofNat']; omega
    have ht : isContinuation (UInt8.ofNat (c.toNat / 64 % 64 + 128)) = true := by
      rw [isContinuation_iff, UInt8.toNat_ofNat']; omega
    have hu : isContinuation (UInt8.ofNat (c.toNat % 64 + 128)) = true := by
      rw [isContinuation_iff, UInt8.toNat_ofNat']; omega
    simp only [front, hw, List.cons_append, hs, ht, hu, if_true, List.length_cons, List.length_nil]
    rw [hself _ (by simp only [payload, UInt8.toNat_ofNat']; omega)]

theorem utf8EncodeChar_ofNat {n : Nat} (h : n.isValidChar) :
    String.utf8EncodeChar (Char.ofNat n) =
      if n ≤ 0x7f then [UInt8.ofNat n]
      else if n ≤ 0x7ff then [UInt8.ofNat (n / 64 % 32 + 0xC0), UInt8.ofNat (n % 64 + 0x80)]
      else if n ≤ 0xffff then
        [UInt8.ofNat (n / 4096 % 16 + 0xE0), UInt8.ofNat (n / 64 % 64 + 0x80),
          UInt8.ofNat (n % 64 + 0x80)]
      else
        [UInt8.ofNat (n / 262144 % 8 + 0xF0), UInt8.ofNat (n / 4096 % 64 + 0x80),
          UInt8.ofNat (n / 64 % 64 + 0x80), UInt8.ofNat (n % 64 + 0x80)] := by
  have hc : (Char.ofNat n).val.toNat = n := toNat_ofNat_of_valid h
  simp only [String.utf8EncodeChar, hc]

theorem ofNat_eq_of_toNat {n : Nat} {b : UInt8} (h : n = b.toNat) : UInt8.ofNat n = b := by
  rw [h, UInt8.ofNat_toNat]

/-- The bytes that make up a character in front of others are the written form of that
character. -/
theorem utf8EncodeChar_of_front {c : Char} {b : UInt8} {bs : List UInt8} {w : Nat}
    (h : front b bs = .character c w) :
    b :: bs = String.utf8EncodeChar c ++ bs.drop (w - 1) := by
  unfold front at h
  split at h
  · rename_i hw
    rw [width_eq_one] at hw
    obtain ⟨rfl, rfl⟩ := Front.character.inj h
    rw [utf8EncodeChar_ofNat (Or.inl (by omega)), if_pos (by omega), UInt8.ofNat_toNat]
    rfl
  · rename_i hw
    rw [width_eq_two] at hw
    split at h
    · cases h
    · rename_i x xs
      split at h
      · rename_i hs
        rw [secondFits_iff] at hs
        obtain ⟨rfl, rfl⟩ := Front.character.inj h
        simp only [payload]
        rw [utf8EncodeChar_ofNat (Or.inl (by omega)), if_neg (by omega), if_pos (by omega),
          ofNat_eq_of_toNat (b := b) (by omega), ofNat_eq_of_toNat (b := x) (by omega)]
        rfl
      · cases h
  · rename_i hw
    rw [width_eq_three] at hw
    split at h
    · cases h
    · rename_i x xs
      split at h
      · rename_i hs
        rw [secondFits_iff] at hs
        split at h
        · cases h
        · rename_i y ys
          split at h
          · rename_i hy
            rw [isContinuation_iff] at hy
            obtain ⟨rfl, rfl⟩ := Front.character.inj h
            have hv : ((b.toNat % 16 * 64 + x.toNat % 64) * 64 + y.toNat % 64).isValidChar := by
              simp only [Nat.isValidChar]; omega
            simp only [payload]
            rw [utf8EncodeChar_ofNat hv, if_neg (by omega),
              if_neg (by omega), if_pos (by omega),
              ofNat_eq_of_toNat (b := b) (by omega),
              ofNat_eq_of_toNat (b := x) (by omega),
              ofNat_eq_of_toNat (b := y) (by omega)]
            rfl
          · cases h
      · cases h
  · rename_i hw
    rw [width_eq_four] at hw
    split at h
    · cases h
    · rename_i x xs
      split at h
      · rename_i hs
        rw [secondFits_iff] at hs
        split at h
        · cases h
        · rename_i y ys
          split at h
          · rename_i hy
            rw [isContinuation_iff] at hy
            split at h
            · cases h
            · rename_i z zs
              split at h
              · rename_i hz
                rw [isContinuation_iff] at hz
                obtain ⟨rfl, rfl⟩ := Front.character.inj h
                have hv : (((b.toNat % 8 * 64 + x.toNat % 64) * 64 + y.toNat % 64) * 64 +
                    z.toNat % 64).isValidChar := by
                  simp only [Nat.isValidChar]; omega
                simp only [payload]
                rw [utf8EncodeChar_ofNat hv, if_neg (by omega),
                  if_neg (by omega), if_neg (by omega),
                  ofNat_eq_of_toNat (b := b) (by omega),
                  ofNat_eq_of_toNat (b := x) (by omega),
                  ofNat_eq_of_toNat (b := y) (by omega), ofNat_eq_of_toNat (b := z) (by omega)]
                rfl
              · cases h
          · cases h
      · cases h
  · cases h

theorem encode_cons (c : Char) (cs : List Char) :
    encode (c :: cs) = String.utf8EncodeChar c ++ encode cs := rfl

theorem decode_encode (cs : List Char) : decode (encode cs) = .ok cs := by
  induction cs with
  | nil => simp [encode, decode]
  | cons c cs ih =>
    obtain ⟨b, bs, hc⟩ := List.exists_cons_of_ne_nil (String.utf8EncodeChar_ne_nil (c := c))
    rw [encode_cons, hc, List.cons_append, decode, front_utf8EncodeChar (encode cs) hc]
    simp only [Nat.add_sub_cancel, List.drop_left, ih]

theorem eq_encode_of_decode {bytes : List UInt8} {cs : List Char} (h : decode bytes = .ok cs) :
    bytes = encode cs := by
  fun_induction decode bytes generalizing cs with
  | case1 => cases h; rfl
  | case2 b bs c w hf ds hd ih =>
    cases h
    rw [encode_cons, ← ih hd]
    exact utf8EncodeChar_of_front hf
  | case3 => cases h
  | case4 => cases h
  | case5 => cases h

/-- Bytes are read as the text they are the written form of, and as no other. -/
theorem decode_eq_ok_iff {bytes : List UInt8} {cs : List Char} :
    decode bytes = .ok cs ↔ bytes = encode cs :=
  ⟨eq_encode_of_decode, fun h => h ▸ decode_encode cs⟩

theorem length_encode (s : String) : (encode s.toList).length = s.utf8ByteSize := by
  have h : (encode s.toList).toByteArray = s.toByteArray := String.utf8Encode_toList
  rw [← List.size_toByteArray, h, String.size_toByteArray]

theorem encode_append (cs ds : List Char) : encode (cs ++ ds) = encode cs ++ encode ds :=
  List.flatMap_append

theorem utf8EncodeChar_of_lt {c : Char} (h : c.toNat < 128) :
    String.utf8EncodeChar c = [UInt8.ofNat c.toNat] := by
  have hc : c.val.toNat = c.toNat := rfl
  rw [String.utf8EncodeChar, hc, if_pos (by omega)]

theorem utf8ByteSize_replicate (n : ℕ) {c : Char} (h : c.toNat < 128) :
    (String.ofList (List.replicate n c)).utf8ByteSize = n := by
  rw [← length_encode, String.toList_ofList, encode, List.length_flatMap, List.map_replicate,
    List.sum_replicate, utf8EncodeChar_of_lt h, List.length_singleton, smul_eq_mul, mul_one]

theorem le_of_mem_utf8EncodeChar {c : Char} (h : 128 ≤ c.toNat) :
    ∀ b ∈ String.utf8EncodeChar c, 128 ≤ b.toNat := by
  have hv := char_valid c
  have hc : c.val.toNat = c.toNat := rfl
  intro b hb
  simp only [String.utf8EncodeChar, hc] at hb
  split_ifs at hb with h1 h2 h3
  · omega
  all_goals
    simp only [List.mem_cons, List.not_mem_nil, or_false] at hb
    rcases hb with rfl | rfl | rfl | rfl <;> rw [UInt8.toNat_ofNat'] <;> omega

/-- Text that begins with the written form of other text begins with that text. -/
theorem eq_append_of_encode {cs out : List Char} {rest : List UInt8}
    (h : encode cs ++ rest = encode out) : ∃ tail, out = cs ++ tail ∧ rest = encode tail := by
  induction cs generalizing out with
  | nil => exact ⟨out, rfl, h⟩
  | cons c cs ih =>
    obtain ⟨b, bs, hc⟩ := List.exists_cons_of_ne_nil (String.utf8EncodeChar_ne_nil (c := c))
    rw [encode_cons, hc] at h
    cases out with
    | nil => cases h
    | cons d out =>
      obtain ⟨b', bs', hd⟩ := List.exists_cons_of_ne_nil (String.utf8EncodeChar_ne_nil (c := d))
      rw [encode_cons, hd, List.append_assoc, List.cons_append, List.cons_append] at h
      obtain ⟨rfl, hrest⟩ := List.cons.inj h
      have hfront := front_utf8EncodeChar (encode cs ++ rest) hc
      rw [hrest, front_utf8EncodeChar (encode out) hd] at hfront
      obtain ⟨rfl, -⟩ := Front.character.inj hfront
      obtain ⟨-, rfl⟩ := List.cons.inj (hc.symm.trans hd)
      obtain ⟨tail, hout, htail⟩ := ih (List.append_cancel_left hrest)
      exact ⟨tail, congrArg (_ :: ·) hout, htail⟩

theorem mem_utf8EncodeChar_iff {c d : Char} (hc : c.toNat < 128) :
    UInt8.ofNat c.toNat ∈ String.utf8EncodeChar d ↔ d = c := by
  have hbyte (e : Char) (he : e.toNat < 128) : (UInt8.ofNat e.toNat).toNat = e.toNat := by
    rw [UInt8.toNat_ofNat']
    omega
  constructor
  · intro hmem
    have hlt : d.toNat < 128 := by
      by_contra hge
      have hle := le_of_mem_utf8EncodeChar (by omega) _ hmem
      rw [hbyte c hc] at hle
      omega
    rw [utf8EncodeChar_of_lt hlt, List.mem_singleton] at hmem
    have hnat := congrArg UInt8.toNat hmem
    rw [hbyte c hc, hbyte d hlt] at hnat
    rw [← Char.ofNat_toNat d, ← hnat, Char.ofNat_toNat]
  · rintro rfl
    rw [utf8EncodeChar_of_lt hc]
    exact List.mem_singleton.mpr rfl

/-- The byte of an ASCII character stands for that character alone. -/
theorem split_at_ascii {before rest : List UInt8} {c : Char} {out : List Char}
    (hc : c.toNat < 128) (h : before ++ UInt8.ofNat c.toNat :: rest = encode out) :
    ∃ front tail, out = front ++ c :: tail ∧ before = encode front ∧ rest = encode tail := by
  induction out generalizing before with
  | nil => cases before <;> cases h
  | cons d out ih =>
    have hbeyond (mid : List UInt8) (hbefore : before = String.utf8EncodeChar d ++ mid)
        (hmid : mid ++ UInt8.ofNat c.toNat :: rest = encode out) :
        ∃ front tail, d :: out = front ++ c :: tail ∧ before = encode front ∧
          rest = encode tail := by
      obtain ⟨front, tail, hout, hfront, htail⟩ := ih hmid
      exact ⟨d :: front, tail, congrArg (d :: ·) hout, by rw [hbefore, hfront, encode_cons], htail⟩
    rw [encode_cons] at h
    rcases List.append_eq_append_iff.mp h with ⟨mid, hd, hrest⟩ | ⟨mid, hbefore, hrest⟩
    · cases mid with
      | nil => exact hbeyond [] (by rw [hd, List.append_nil, List.append_nil]) hrest
      | cons b mid =>
        -- The byte lies in the written form of `d`, which is `c` then.
        obtain ⟨rfl, htail⟩ := List.cons.inj hrest
        obtain rfl := (mem_utf8EncodeChar_iff hc).mp
          (hd ▸ List.mem_append_right before List.mem_cons_self)
        rw [utf8EncodeChar_of_lt hc, eq_comm, List.append_eq_singleton_iff] at hd
        rcases hd with ⟨rfl, hmid⟩ | ⟨-, hmid⟩
        · obtain ⟨-, rfl⟩ := List.cons.inj hmid
          exact ⟨[], out, rfl, rfl, htail⟩
        · cases hmid
    · exact hbeyond mid hbefore hrest.symm

end MetaFs.Utf8
