import Mathlib
import MetaFs.Proofs.UrlPaths
import MetaFs.Url.Host
/-! The hosts of URLs. However a host is written, no character of its lasting form is forbidden in
a host, but for the colons and the brackets of an address. -/

namespace MetaFs.Url

/-- No character of a text is forbidden in a host. -/
def Allowed (text : List Char) : Prop :=
  ∀ c ∈ text, forbiddenInHost c = false

theorem allowed_nil : Allowed [] := by
  rintro c ⟨⟩

theorem allowed_append {text rest : List Char} :
    Allowed (text ++ rest) ↔ Allowed text ∧ Allowed rest :=
  List.forall_mem_append

theorem allowed_cons {c : Char} {text : List Char} :
    Allowed (c :: text) ↔ forbiddenInHost c = false ∧ Allowed text :=
  List.forall_mem_cons

theorem endsPath_of_not_forbidden {c : Char} (h : forbiddenInHost c = false) :
    endsPath c = false := by
  by_contra hends
  simp only [endsPath, Bool.not_eq_false, Bool.or_eq_true, decide_eq_true_eq] at hends
  rcases hends with rfl | rfl <;> cases h

theorem Allowed.unmarked {text : List Char} (h : Allowed text) : Unmarked text :=
  fun c hc => endsPath_of_not_forbidden (h c hc)

theorem forbiddenInHost_of_mem_escape {c : Char} {b : UInt8} (h : c ∈ Percent.escape b) :
    forbiddenInHost c = false := by
  rcases mem_escape h with rfl | hdigit
  · decide
  · by_contra hforbidden
    rw [Bool.not_eq_false, forbiddenInHost, List.contains_iff_mem] at hforbidden
    simp only [List.mem_cons, List.not_mem_nil, or_false] at hforbidden
    revert hdigit
    rcases hforbidden with rfl | rfl | rfl | rfl | rfl | rfl | rfl | rfl | rfl | rfl | rfl | rfl |
      rfl | rfl | rfl | rfl | rfl <;> decide

theorem allowed_intercalate {separator : List Char} {texts : List (List Char)}
    (hseparator : Allowed separator) (h : ∀ text ∈ texts, Allowed text) :
    Allowed (separator.intercalate texts) :=
  forall_mem_intercalate hseparator h

theorem forbiddenInHost_digitChar {n : ℕ} (h : n < 16) : forbiddenInHost n.digitChar = false := by
  interval_cases n <;> decide

theorem allowed_toDigits {base : ℕ} (hbase : 1 < base) (hle : base ≤ 16) (n : ℕ) :
    Allowed (Nat.toDigits base n) := by
  induction n using Nat.strongRecOn with
  | ind n ih =>
    -- A number is its last digit behind the digits of its quotient.
    rw [Nat.toDigits_eq_if hbase]
    split_ifs with hlt
    · exact allowed_cons.mpr ⟨forbiddenInHost_digitChar (by omega), allowed_nil⟩
    · have hdiv : n / base < n := Nat.div_lt_self (by omega) hbase
      have hmod : n % base < base := Nat.mod_lt n (by omega)
      exact allowed_append.mpr
        ⟨ih _ hdiv, allowed_cons.mpr ⟨forbiddenInHost_digitChar (by omega), allowed_nil⟩⟩

theorem allowed_toString (n : ℕ) : Allowed (toString n).toList := by
  rw [Nat.toString_eq_ofList_toDigits, String.toList_ofList]
  exact allowed_toDigits (by decide) (by decide) n

namespace Punycode

theorem forbiddenInHost_digit {n : ℕ} (h : n < 36) : forbiddenInHost (digit n) = false := by
  interval_cases n <;> decide

theorem allowed_writeNumber (q k bias : ℕ) : Allowed (writeNumber q k bias) := by
  have ht := threshold_lt k bias
  rw [writeNumber]
  split_ifs with hlt
  · exact allowed_cons.mpr ⟨forbiddenInHost_digit (lt_trans hlt ht), allowed_nil⟩
  · have hmod : (q - threshold k bias) % (36 - threshold k bias) < 36 - threshold k bias :=
      Nat.mod_lt _ (by omega)
    exact allowed_cons.mpr ⟨forbiddenInHost_digit (by omega), allowed_writeNumber _ _ _⟩
termination_by q
decreasing_by
  have hpos : 0 < threshold k bias := by
    rw [threshold]
    split_ifs <;> omega
  exact Nat.lt_of_le_of_lt (Nat.div_le_self _ _) (by omega)

theorem allowed_pass {basic n : ℕ} {w : Writer} {label : List Char} (h : Allowed w.output) :
    Allowed (pass basic n w label).output := by
  induction label generalizing w with
  | nil => exact h
  | cons c label ih =>
    rw [pass]
    split_ifs
    · exact ih h
    · exact ih (allowed_append.mpr ⟨h, allowed_writeNumber _ _ _⟩)
    · exact ih h

theorem allowed_encode {label : List Char} (h : Allowed label) : Allowed (encode label) := by
  have hascii : Allowed (label.filter (·.toNat < 128)) := fun c hc => h c (List.mem_filter.mp hc).1
  have hstart : Allowed (if (label.filter (·.toNat < 128)).length = 0 then []
      else label.filter (·.toNat < 128) ++ ['-']) := by
    split_ifs
    · exact allowed_nil
    · exact allowed_append.mpr ⟨hascii, allowed_cons.mpr ⟨rfl, allowed_nil⟩⟩
  -- What one pass over the label keeps holds behind all of them.
  exact List.foldlRecOn (motive := fun state : Writer × ℕ => Allowed state.1.output)
    (points label) _ hstart fun state hstate n _ => allowed_pass hstate

end Punycode

namespace Domain

theorem allowed_encodeLabel {label : List Char} (h : Allowed label) :
    Allowed (encodeLabel label) := by
  rw [encodeLabel]
  split_ifs
  · exact h
  · refine allowed_append.mpr ⟨?_, Punycode.allowed_encode h⟩
    simp only [allowed_cons]
    exact ⟨rfl, rfl, rfl, rfl, allowed_nil⟩

theorem allowed_normalize? {text name : List Char} (h : normalize? text = some name) :
    Allowed name := by
  rw [normalize?] at h
  obtain ⟨decoded, -, h⟩ := Option.bind_eq_some_iff.mp h
  by_cases hforbidden :
      ((decoded.flatMap fold).any fun c => forbiddenInDomain c || isRefused c) = true
  · rw [if_pos hforbidden] at h
    cases h
  have hfolded : Allowed (decoded.flatMap fold) := by
    intro c hc
    rw [Bool.not_eq_true, List.any_eq_false] at hforbidden
    have hnot := hforbidden c hc
    simp only [forbiddenInDomain, Bool.or_eq_true, not_or, Bool.not_eq_true] at hnot
    exact hnot.1.2
  rw [if_neg hforbidden] at h
  dsimp only at h
  split_ifs at h with hproper
  cases h
  have hdot : Allowed ['.'] := allowed_cons.mpr ⟨by rfl, allowed_nil⟩
  refine allowed_intercalate hdot fun label hlabel => ?_
  obtain ⟨part, hpart, rfl⟩ := List.mem_map.mp hlabel
  exact allowed_encodeLabel fun c hc => hfolded c (mem_of_mem_parts hpart hc).2

end Domain

theorem Ipv4.allowed_display (address : ℕ) : Allowed (Ipv4.display address) := by
  rw [Ipv4.display, String.toList_intercalate]
  refine allowed_intercalate (allowed_cons.mpr ⟨rfl, allowed_nil⟩) fun text htext => ?_
  obtain ⟨byte, hbyte, rfl⟩ := List.mem_map.mp htext
  simp only [List.mem_cons, List.not_mem_nil, or_false] at hbyte
  rcases hbyte with rfl | rfl | rfl | rfl <;> exact allowed_toString _

namespace Ipv6

/-- The characters of an address in brackets. -/
def Bracketed (text : List Char) : Prop :=
  ∀ c ∈ text, c = ':' ∨ forbiddenInHost c = false

theorem bracketed_colonSeparated (groups : List ℕ) : Bracketed (colonSeparated groups) := by
  rw [colonSeparated, String.toList_intercalate]
  refine forall_mem_intercalate ?_ fun text htext => ?_
  · intro c hc
    exact .inl (List.mem_singleton.mp hc)
  · rw [List.map_map] at htext
    obtain ⟨group, -, rfl⟩ := List.mem_map.mp htext
    rw [Function.comp_apply, Numeral.hexadecimal, String.toList_ofList]
    exact fun c hc => .inr (allowed_toDigits (by decide) (by decide) group c hc)

theorem bracketed_display (groups : List ℕ) : Bracketed (display groups) := by
  rw [display]
  dsimp only
  split_ifs
  · exact bracketed_colonSeparated groups
  · refine List.forall_mem_append.mpr ⟨List.forall_mem_append.mpr ⟨bracketed_colonSeparated _, ?_⟩,
      bracketed_colonSeparated _⟩
    intro c hc
    simp only [List.mem_cons, List.not_mem_nil, or_false, or_self] at hc
    exact .inl hc

end Ipv6

/-- A host in its lasting form: an address in brackets, or no character of it is forbidden. -/
def IsHost (host : List Char) : Prop :=
  Allowed host ∨ ∃ inner, host = '[' :: inner ++ [']'] ∧ Ipv6.Bracketed inner

theorem isHost_nil : IsHost [] :=
  .inl allowed_nil

/-- The characters that end a host or divide what is before a path are in no host. -/
theorem IsHost.undelimited {host : List Char} (h : IsHost host) {c : Char} (hc : c ∈ host) :
    c = ':' ∨ c = '[' ∨ c = ']' ∨ forbiddenInHost c = false := by
  rcases h with hallowed | ⟨inner, rfl, hinner⟩
  · exact .inr (.inr (.inr (hallowed c hc)))
  · rcases List.mem_append.mp hc with hmem | hmem
    · rcases List.mem_cons.mp hmem with rfl | hmem
      · exact .inr (.inl rfl)
      · exact (hinner c hmem).imp_right fun h => .inr (.inr h)
    · exact .inr (.inr (.inl (List.mem_singleton.mp hmem)))

theorem IsHost.unmarked {host : List Char} (h : IsHost host) : Unmarked host := by
  intro c hc
  rcases h.undelimited hc with rfl | rfl | rfl | hallowed
  · rfl
  · rfl
  · rfl
  · exact endsPath_of_not_forbidden hallowed

namespace Host

theorem isHost_bracketed {text host : List Char} (h : bracketed text = .ok host) :
    IsHost host := by
  rw [bracketed] at h
  split_ifs at h with hlast
  split at h
  · cases h
    exact .inr ⟨_, rfl, Ipv6.bracketed_display _⟩
  · cases h

theorem isHost_ofDomain {text host : List Char} (h : ofDomain text = .ok host) : IsHost host := by
  rw [ofDomain] at h
  split_ifs at h with hbracket
  · exact isHost_bracketed h
  · split at h
    · cases h
    · cases h
    · rename_i name hne hname
      split_ifs at h with hnumber
      · split at h
        · cases h
          exact .inl (Ipv4.allowed_display _)
        · cases h
      · cases h
        exact .inl (Domain.allowed_normalize? hname)

theorem isHost_ofText {text host : List Char} (h : ofText text = .ok host) : IsHost host := by
  rw [ofText] at h
  split_ifs at h with hbracket hforbidden
  · exact isHost_bracketed h
  · cases h
    rw [Bool.not_eq_true, List.any_eq_false] at hforbidden
    left
    intro c hc
    rcases mem_encode hc with ⟨hmem, -⟩ | ⟨b, hb⟩
    · exact Bool.eq_false_of_not_eq_true (hforbidden c hmem)
    · exact forbiddenInHost_of_mem_escape hb

/-- A domain has a name. -/
theorem ne_nil_of_ofDomain {text host : List Char} (h : ofDomain text = .ok host) : host ≠ [] := by
  rw [ofDomain] at h
  split_ifs at h with hbracket
  · rw [bracketed] at h
    split_ifs at h
    split at h
    · cases h
      exact List.cons_ne_nil _ _
    · cases h
  · split at h
    · cases h
    · cases h
    · rename_i name hne hname
      split_ifs at h with hnumber
      · split at h
        · cases h
          rw [Ipv4.display, String.toList_intercalate]
          intro hnil
          simp at hnil
        · cases h
      · cases h
        rintro rfl
        exact hne rfl

end Host

end MetaFs.Url
