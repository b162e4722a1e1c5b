import Mathlib
import MetaFs.Proofs.DisplayNames
/-! What a text of permission bits means, and with which mode directories are made then: the mask of
a session is what its text means, and a new directory gets every permission that is not in it. -/

namespace MetaFs

namespace Permission

variable {text : String} {digits : List Char}

def IsOctal (c : Char) : Prop :=
  '0' ≤ c ∧ c ≤ '7'

instance : DecidablePred IsOctal := fun c => inferInstanceAs (Decidable ('0' ≤ c ∧ c ≤ '7'))

/-- There is nothing in the text but spaces and octal digits. -/
def Plain (text : String) : Prop :=
  ∀ c ∈ text.toList, c = ' ' ∨ IsOctal c

/-- The digits of the text that count: all those between the leading spaces and the next one. -/
def Counts (text : String) (digits : List Char) : Prop :=
  ∃ leading rest, text.toList = leading ++ digits ++ rest ∧ (∀ c ∈ leading, c = ' ') ∧
    (∀ c ∈ digits, IsOctal c) ∧ (∀ c ∈ rest.head?, c = ' ') ∧ (digits = [] → rest = [])

/-- The number that octal digits write. -/
def number (digits : List Char) : ℕ :=
  Nat.ofDigits 8 (digits.reverse.map fun c => c.toNat - '0'.toNat)

/-- What a text of permission bits means, or why it means nothing. -/
inductive Means (text : String) : Except Error UInt32 → Prop where
  | mask {digits : List Char} {mask : UInt32} (plain : Plain text) (counts : Counts text digits)
      (value : mask.toNat = number digits) : Means text (.ok mask)
  | symbolic (other : ¬Plain text) : Means text (.error
      ⟨.opnotsupp, s!"parse_permission({text}): can't parse non-octal permissions (yet)", none⟩)
  | large {digits : List Char} (plain : Plain text) (counts : Counts text digits)
      (value : 2 ^ 32 ≤ number digits) : Means text (.error
        ⟨.inval, s!"parse_permission({text}): failed to parse this octal string: " ++
          "number too large to fit in target type", none⟩)

theorem ne_space_of_isOctal {c : Char} (h : IsOctal c) : c ≠ ' ' := by
  rintro rfl
  exact absurd h (by decide)

theorem number_cons (c : Char) (digits : List Char) :
    number (c :: digits) = (c.toNat - '0'.toNat) * 8 ^ digits.length + number digits := by
  unfold number
  rw [List.reverse_cons, List.map_append, Nat.ofDigits_append, List.map_singleton,
    Nat.ofDigits_singleton, List.length_map, List.length_reverse]
  ring

theorem digit?_of_isOctal {c : Char} (h : IsOctal c) :
    Numeral.digit? 8 c = some (c.toNat - '0'.toNat) := by
  have hlow : 48 ≤ c.toNat := h.1
  have hhigh : c.toNat ≤ 55 := h.2
  have hdecimal : (decide (48 ≤ c.toNat) && decide (c.toNat ≤ 57)) = true := by
    simp only [Bool.and_eq_true, decide_eq_true_eq]
    omega
  have hbelow : c.toNat - 48 < 8 := by omega
  unfold Numeral.digit?
  dsimp only
  rw [if_pos hdecimal, if_pos hbelow]
  rfl

/-- Each digit counts eight times as much as all behind it can hold, and the zeros in front count
for nothing. -/
theorem continue?_of_isOctal (h : ∀ c ∈ digits, IsOctal c) (high : ℕ) :
    Numeral.continue? 8 high digits = some (high * 8 ^ digits.length + number digits) := by
  induction digits generalizing high with
  | nil => simp [Numeral.continue?, number]
  | cons c digits ih =>
    rw [List.forall_mem_cons] at h
    obtain ⟨hc, hdigits⟩ := h
    calc Numeral.continue? 8 high (c :: digits)
      _ = Numeral.continue? 8 (high * 8 + (c.toNat - '0'.toNat)) digits := by
        rw [Numeral.continue?, digit?_of_isOctal hc, Option.bind_eq_bind, Option.bind_some]
      _ = some ((high * 8 + (c.toNat - '0'.toNat)) * 8 ^ digits.length + number digits) :=
        ih hdigits _
      _ = some (high * 8 ^ (c :: digits).length + number (c :: digits)) := by
        rw [number_cons, List.length_cons]
        congr 1
        ring

/-- The digits that count, as they are found by the spaces around them. -/
def counted (text : String) : List Char :=
  (text.toList.dropWhile (· = ' ')).takeWhile (· ≠ ' ')

theorem Counts.eq_counted (h : Counts text digits) : digits = counted text := by
  obtain ⟨leading, rest, htext, hleading, hdigits, hrest, hnone⟩ := h
  have hdrop : text.toList.dropWhile (· = ' ') = digits ++ rest := by
    rw [htext, List.append_assoc, List.dropWhile_append_of_pos (by simpa using hleading)]
    -- The leading spaces end where the digits begin, or else with the text.
    cases digits with
    | nil =>
      rw [hnone rfl]
      rfl
    | cons c digits =>
      have hc : c ≠ ' ' := ne_space_of_isOctal (hdigits c List.mem_cons_self)
      exact List.dropWhile_cons_of_neg (by simpa using hc)
  have htake : rest.takeWhile (· ≠ ' ') = [] := by
    cases rest with
    | nil => rfl
    | cons c rest =>
      have hc : c = ' ' := hrest c rfl
      exact List.takeWhile_cons_of_neg (by simpa using hc)
  have hall : ∀ c ∈ digits, decide (c ≠ ' ') = true := by
    intro c hc
    exact decide_eq_true (ne_space_of_isOctal (hdigits c hc))
  rw [counted, hdrop, List.takeWhile_append_of_pos hall, htake, List.append_nil]

theorem counts_counted (h : Plain text) : Counts text (counted text) := by
  obtain ⟨behind, hbehind⟩ : ∃ behind, text.toList.dropWhile (· = ' ') = behind := ⟨_, rfl⟩
  have htext : text.toList.takeWhile (· = ' ') ++ behind = text.toList := by
    rw [← hbehind]
    exact List.takeWhile_append_dropWhile
  have hcounted : counted text ++ behind.dropWhile (· ≠ ' ') = behind := by
    rw [counted, hbehind]
    exact List.takeWhile_append_dropWhile
  refine ⟨text.toList.takeWhile (· = ' '), behind.dropWhile (· ≠ ' '), ?_, ?_, ?_, ?_, ?_⟩
  · rw [List.append_assoc, hcounted, htext]
  · intro c hc
    simpa using List.mem_takeWhile_imp hc
  · intro c hc
    have hother : c ≠ ' ' := by simpa using List.mem_takeWhile_imp hc
    have hmem : c ∈ text.toList := by
      rw [← htext, ← hcounted]
      exact List.mem_append_right _ (List.mem_append_left _ hc)
    exact (h c hmem).resolve_left hother
  · intro c hc
    have hhead := List.head?_dropWhile_not (· ≠ ' ') behind
    rw [Option.mem_def.mp hc] at hhead
    simpa using hhead
  · intro hnone
    cases behind with
    | nil => rfl
    | cons c rest =>
      -- The first character behind the leading spaces is a digit, and it counts.
      have hhead := List.head?_dropWhile_not (· = ' ') text.toList
      rw [hbehind] at hhead
      have hc : c ≠ ' ' := by simpa using hhead
      rw [counted, hbehind, List.takeWhile_cons_of_pos (by simpa using hc)] at hnone
      cases hnone

theorem Means.unique {result result' : Except Error UInt32} (h : Means text result)
    (h' : Means text result') : result = result' := by
  have hnumber {digits digits' : List Char} (h : Counts text digits) (h' : Counts text digits') :
      number digits = number digits' := by
    rw [h.eq_counted, h'.eq_counted]
  cases h with
  | symbolic other =>
    cases h' with
    | symbolic => rfl
    | mask plain | large plain => exact absurd plain other
  | @mask _ mask plain counts value =>
    cases h' with
    | symbolic other => exact absurd plain other
    | mask _ counts' value' =>
      rw [hnumber counts counts', ← value'] at value
      rw [UInt32.toNat_inj.mp value]
    | large _ counts' value' =>
      have hlt := mask.toNat_lt
      rw [hnumber counts counts'] at value
      omega
  | large plain counts value =>
    cases h' with
    | symbolic other => exact absurd plain other
    | @mask _ mask _ counts' value' =>
      have hlt := mask.toNat_lt
      rw [hnumber counts counts'] at value
      omega
    | large => rfl

theorem all_iff_plain : (text.toList.all fun c => c = ' ' || ('0' ≤ c && c ≤ '7')) = true ↔
    Plain text := by
  rw [List.all_eq_true]
  simp only [Bool.or_eq_true, Bool.and_eq_true, decide_eq_true_eq]
  rfl

theorem means_parse (text : String) : Means text (parse text) := by
  unfold parse
  dsimp only
  by_cases hplain : Plain text
  · have hcounts := counts_counted hplain
    have hdigits : ∀ c ∈ counted text, IsOctal c := by
      obtain ⟨_, _, _, _, hdigits, -⟩ := hcounts
      exact hdigits
    have hvalue : (Numeral.continue? 8 0 (counted text)).getD 0 = number (counted text) := by
      rw [continue?_of_isOctal hdigits, Option.getD_some, Nat.zero_mul, Nat.zero_add]
    rw [counted] at hvalue
    rw [all_iff_plain.mpr hplain, hvalue, ← counted]
    by_cases hfits : number (counted text) < UInt32.size
    · rw [if_neg (by decide), if_pos hfits]
      exact .mask hplain hcounts (UInt32.toNat_ofNat_of_lt' hfits)
    · rw [if_neg (by decide), if_neg hfits]
      exact .large hplain hcounts (Nat.le_of_not_lt hfits)
  · have hall := mt all_iff_plain.mp hplain
    rw [Bool.not_eq_true] at hall
    rw [hall]
    exact .symbolic hplain

theorem parse_eq_iff {result : Except Error UInt32} : parse text = result ↔ Means text result := by
  constructor
  · rintro rfl
    exact means_parse text
  · exact (means_parse text).unique

end Permission

namespace Session

variable {σ τ : Type} {settings : Settings} {processUser : String} {opening : Link σ} {state : σ}
  {s : Session}

/-- Nothing else than the configured text makes the mask of a session. -/
theorem means_umask (h : ((settings.connect processUser opening).run.run state).1 = .ok s) :
    Permission.Means ((settings.conf.get? Key.umask).getD Settings.defaultUmask)
      (.ok s.profile.umask) := by
  obtain ⟨outcome, next, contacts, hrun, -, hopens, -⟩ :=
    Settings.exists_run_opens settings processUser opening state
  rw [hrun] at h
  cases h
  cases hopens with
  | answered ready profiles =>
    apply Permission.parse_eq_iff.mp
    have humask := profiles.umask
    unfold Settings.umask at humask
    split at humask
    · rename_i mask hparse
      cases humask
      exact hparse
    · cases humask

/-- The permissions that everybody gets, as far as the mask leaves them. -/
theorem testBit_unmasked (mask : UInt32) (i : ℕ) :
    (0o777 &&& ~~~mask : UInt32).toNat.testBit i = (decide (i < 9) && !mask.toNat.testBit i) := by
  have hall : (0o777 : UInt32).toNat = 2 ^ 9 - 1 := rfl
  have hnot : (~~~mask).toNat = 2 ^ 32 - (mask.toNat + 1) := by
    have hsize : UInt32.size = 2 ^ 32 := rfl
    rw [UInt32.toNat_not]
    omega
  calc (0o777 &&& ~~~mask : UInt32).toNat.testBit i
    _ = ((0o777 : UInt32).toNat.testBit i && (~~~mask).toNat.testBit i) := by
      rw [UInt32.toNat_and, Nat.testBit_and]
    _ = (decide (i < 9) && (decide (i < 32) && !mask.toNat.testBit i)) := by
      rw [hall, Nat.testBit_two_pow_sub_one, hnot, Nat.testBit_two_pow_sub_succ mask.toNat_lt]
    _ = (decide (i < 9) && !mask.toNat.testBit i) := by
      by_cases hi : i < 9
      · have hword : i < 32 := by omega
        rw [decide_eq_true hword, Bool.true_and]
      · rw [decide_eq_false hi, Bool.false_and, Bool.false_and]

/-- The one request for a directory, whatever comes back for it. -/
theorem exists_run_mkdir {given path : String} (link : Link τ)
    (resolves : s.workingDirectory.resolve given = .ok path) (start : τ) :
    ∃ reply outcome next,
      (s.mkdir link.noting given).run.run (start, []) = (outcome, next,
        [⟨.mkdirs path (0o777 &&& ~~~s.profile.umask) true, reply⟩]) := by
  obtain ⟨request, context, hasks, hrun⟩ :=
    (handles_mkdir s link given).sendsOnce rfl resolves (List.forall_mem_nil _)
  obtain ⟨reply, outcome, next, -, -, hnoted, -⟩ := hrun start []
  cases hasks with
  | mkdir => exact ⟨reply, outcome, next, hnoted⟩

/-- A text of permission bits means the octal number between its leading spaces and the next one,
and nothing if it is no such text or the number is too large. The mask of a session is what the
configured text means, wherever the session has gone, and a directory is made with every permission
that is not in the mask. -/
theorem mask_means_text (settings : Settings) (processUser : String) (opening : Link σ)
    (state : σ) :
    (∀ text result, Permission.parse text = result ↔ Permission.Means text result) ∧
    ∀ s, ((settings.connect processUser opening).run.run state).1 = .ok s →
      Permission.Means ((settings.conf.get? Key.umask).getD Settings.defaultUmask)
        (.ok s.profile.umask) ∧
      ∀ moved given path, (s.moves moved).workingDirectory.resolve given = .ok path →
        ∀ {τ : Type} (link : Link τ) (start : τ), ∃ mode reply outcome next,
          ((s.moves moved).mkdir link.noting given).run.run (start, []) =
            (outcome, next, [⟨.mkdirs path mode true, reply⟩]) ∧
          ∀ i, mode.toNat.testBit i = (decide (i < 9) && !s.profile.umask.toNat.testBit i) := by
  refine ⟨fun text result => Permission.parse_eq_iff, fun s h => ⟨means_umask h, ?_⟩⟩
  intro moved given path resolves τ link start
  obtain ⟨reply, outcome, next, hrun⟩ := exists_run_mkdir link resolves start
  rw [profile_moves] at hrun
  exact ⟨_, reply, outcome, next, hrun, testBit_unmasked s.profile.umask⟩

def maskedSettings : Settings where
  nameNode := some "nn"
  conf := .ofList [("dfs.umaskmode", " 00000000000027 755")]

def maskedSession : Session :=
  { openedSession with profile := { openedSession.profile with umask := 0o27 } }

/-- The zeros do not count, and neither does what follows the second space. -/
theorem mask_means_text_zeros :
    ((maskedSettings.connect "alice" scripted).run.run openingReplies).1 = .ok maskedSession ∧
    Permission.Means " 00000000000027 755" (.ok 0o27) ∧
    ∃ reply outcome next, (maskedSession.mkdir scripted.noting "logs").run.run ([], []) =
      (outcome, next, [⟨.mkdirs "/user/alice/logs" 0o750 true, reply⟩]) := by
  have hconnect : ((maskedSettings.connect "alice" scripted).run.run openingReplies).1 =
      .ok maskedSession := by
    decide +kernel
  have hresolve : (maskedSession.moves []).workingDirectory.resolve "logs" =
      .ok "/user/alice/logs" := by
    cbv
  obtain ⟨-, hsession⟩ := mask_means_text maskedSettings "alice" scripted openingReplies
  obtain ⟨hmeans, hmkdir⟩ := hsession maskedSession hconnect
  obtain ⟨mode, reply, outcome, next, hrun, hbits⟩ := hmkdir [] "logs" _ hresolve scripted []
  have hmode : mode = 0o750 := by
    have hunmasked : (0o750 : UInt32) = 0o777 &&& ~~~0o27 := by decide
    apply UInt32.toNat_inj.mp
    apply Nat.eq_of_testBit_eq
    intro i
    rw [hunmasked, testBit_unmasked]
    exact hbits i
  rw [hmode] at hrun
  exact ⟨hconnect, hmeans, reply, outcome, next, hrun⟩

end Session

end MetaFs
