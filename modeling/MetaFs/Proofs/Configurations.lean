import Mathlib
import MetaFs.Settings
/-! A configuration is a map in which the last write wins. The names of a key are one key, so that
no answer depends on which of them was written or is looked up. -/

namespace MetaFs

namespace Key

variable {key key' : String}

/-- The keys that have old names: each one with its old names behind it. -/
def families : List (List String) := [
  ["fs.defaultFS", "fs.default.name"],
  ["fs.permissions.umask-mode", "dfs.umaskmode"],
  ["dfs.client.socket-timeout", "dfs.socket.timeout"],
  ["dfs.client-write-packet-size", "dfs.write.packet.size"]]

/-- Both are names of one key. -/
def Aliases (key key' : String) : Prop :=
  key = key' ∨ ∃ family ∈ families, key ∈ family ∧ key' ∈ family

instance : DecidableRel Aliases := fun key key' =>
  inferInstanceAs (Decidable (key = key' ∨ ∃ family ∈ families, key ∈ family ∧ key' ∈ family))

/-- A key of a family has the name that the family begins with, and any other key its own. -/
theorem modern_cases (key : String) :
    (∃ family ∈ families, key ∈ family ∧ family.head? = some (modern key)) ∨
      (∀ family ∈ families, key ∉ family) ∧ modern key = key := by
  by_cases hkey : ∃ family ∈ families, key ∈ family
  · have hheads : ∀ family ∈ families, ∀ key ∈ family, family.head? = some (modern key) := by decide
    obtain ⟨family, hfamily, hmem⟩ := hkey
    exact .inl ⟨family, hfamily, hmem, hheads family hfamily key hmem⟩
  · have hrenamed : ∀ entry ∈ renamed, ∃ family ∈ families, entry.1 ∈ family := by decide
    have hlookup : renamed.lookup key = none := by
      apply List.lookup_eq_none_iff.mpr
      intro entry hentry
      apply bne_iff_ne.mpr
      intro hold
      rw [hold] at hkey
      exact hkey (hrenamed entry hentry)
    push Not at hkey
    refine .inr ⟨hkey, ?_⟩
    rw [modern, hlookup, Option.getD_none]

/-- No key is in two families, and none is renamed to another key that is renamed itself. -/
theorem modern_eq_modern_iff : modern key = modern key' ↔ Aliases key key' := by
  have hfirst : ∀ family ∈ families, ∀ family' ∈ families,
      family.head? = family'.head? → family = family' := by decide
  constructor
  · intro h
    rcases modern_cases key with ⟨family, hfamily, hmem, hhead⟩ | ⟨hnone, hown⟩
    · rw [h] at hhead
      rcases modern_cases key' with ⟨family', hfamily', hmem', hhead'⟩ | ⟨hnone', hown'⟩
      · obtain rfl := hfirst family hfamily family' hfamily' (hhead.trans hhead'.symm)
        exact .inr ⟨family, hfamily, hmem, hmem'⟩
      · rw [hown'] at hhead
        exact absurd (List.mem_of_mem_head? hhead) (hnone' family hfamily)
    · rw [hown] at h
      rcases modern_cases key' with ⟨family', hfamily', -, hhead'⟩ | ⟨-, hown'⟩
      · rw [← h] at hhead'
        exact absurd (List.mem_of_mem_head? hhead') (hnone family' hfamily')
      · exact .inl (h.trans hown')
  · intro h
    have hmodern : ∀ family ∈ families, ∀ key ∈ family, ∀ key' ∈ family,
        modern key = modern key' := by decide
    rcases h with rfl | ⟨family, hfamily, hmem, hmem'⟩
    · rfl
    · exact hmodern family hfamily key hmem key' hmem'

end Key

namespace Configuration

variable {settings : List (String × String)} {conf conf' : Configuration} {key key' : String}

/-- The configuration to which these settings have led, some of them at once and the others one by
one. -/
inductive Built : List (String × String) → Configuration → Prop where
  | ofList (settings : List (String × String)) : Built settings (ofList settings)
  | set {settings : List (String × String)} {conf : Configuration} (built : Built settings conf)
      (key value : String) : Built (settings ++ [(key, value)]) (conf.set key value)

/-- The last of the settings of this key has this value. -/
def SetsLast (settings : List (String × String)) (key value : String) : Prop :=
  ∃ before name after, settings = before ++ (name, value) :: after ∧
    Key.modern name = Key.modern key ∧ ∀ setting ∈ after, Key.modern setting.1 ≠ Key.modern key

/-- The error of a value that is no integer. -/
def noInteger (key value : String) : Error :=
  ⟨.inval, s!"failed to parse the value '{value}' of key {key} as an integer", none⟩

/-- The same number, or two errors that differ only in how they spell the key. -/
inductive ReadsAlike {α : Type} (key key' : String) : Except Error α → Except Error α → Prop where
  | number (a : α) : ReadsAlike key key' (.ok a) (.ok a)
  | unreadable (value : String) :
      ReadsAlike key key' (.error (noInteger key value)) (.error (noInteger key' value))

/-- Both answer alike, whichever name of a key each of them is asked for, and open the same. -/
structure Agrees (conf conf' : Configuration) : Prop where
  get? : ∀ key key', Key.Aliases key key' → conf.get? key = conf'.get? key'
  int? : ∀ key key', Key.Aliases key key' → ReadsAlike key key' (conf.int? key) (conf'.int? key')
  intOr : ∀ key key' default, Key.Aliases key key' →
    ReadsAlike key key' (conf.intOr key default) (conf'.intOr key' default)
  size : conf.size = conf'.size
  isEmpty : conf.isEmpty = conf'.isEmpty
  connect : ∀ (settings : Settings) (processUser : String) {σ : Type} (link : Link σ),
    ({ settings with conf } : Settings).connect processUser link =
      ({ settings with conf := conf' } : Settings).connect processUser link

/-- The same setting, with another name of its key perhaps. -/
def Respells (setting setting' : String × String) : Prop :=
  Key.Aliases setting.1 setting'.1 ∧ setting.2 = setting'.2

/-! What one setting changes. -/

theorem lookup_filter_ne (entries : List (String × String)) (name name' : String) :
    (entries.filter fun entry => entry.1 != name).lookup name' =
      if name' = name then none else entries.lookup name' := by
  induction entries with
  | nil => simp
  | cons entry entries ih =>
    obtain ⟨held, value⟩ := entry
    by_cases hheld : held = name
    -- What is held under the name goes, and is not what any other name finds.
    · subst hheld
      rw [List.filter_cons_of_neg (by simp), ih, List.lookup_cons]
      split_ifs with hname
      · rfl
      · rw [beq_eq_false_iff_ne.mpr hname]
    · rw [List.filter_cons_of_pos (by simpa using hheld), List.lookup_cons, ih, List.lookup_cons]
      by_cases hname : name' = held
      · have hother : name' ≠ name := fun h => hheld (hname.symm.trans h)
        rw [beq_iff_eq.mpr hname, if_neg hother, if_neg hother]
      · rw [beq_eq_false_iff_ne.mpr hname]

theorem get?_set (conf : Configuration) (key value key' : String) :
    (conf.set key value).get? key' =
      if Key.modern key' = Key.modern key then some value else conf.get? key' := by
  unfold get? set
  rw [List.lookup_cons, lookup_filter_ne]
  by_cases hname : Key.modern key' = Key.modern key
  · rw [beq_iff_eq.mpr hname, if_pos hname, if_pos hname]
  · rw [beq_eq_false_iff_ne.mpr hname, if_neg hname, if_neg hname]

/-- The names under which something is held. -/
def names (conf : Configuration) : List String :=
  conf.entries.map Prod.fst

theorem names_set (conf : Configuration) (key value : String) :
    (conf.set key value).names =
      Key.modern key :: conf.names.filter fun name => name != Key.modern key := by
  unfold names set
  rw [List.map_cons, List.filter_map]
  rfl

theorem length_names (conf : Configuration) : conf.names.length = conf.size :=
  List.length_map _

theorem set_of_aliases (h : Key.Aliases key key') (value : String) (conf : Configuration) :
    conf.set key value = conf.set key' value := by
  unfold set
  rw [Key.modern_eq_modern_iff.mpr h]

/-! What several settings change, one after the other. -/

def setAll (settings : List (String × String)) (conf : Configuration) : Configuration :=
  settings.foldl (fun conf (key, value) => conf.set key value) conf

theorem setAll_append (before after : List (String × String)) (conf : Configuration) :
    conf.setAll (before ++ after) = (conf.setAll before).setAll after :=
  List.foldl_append

theorem ofList_concat (settings : List (String × String)) (key value : String) :
    ofList (settings ++ [(key, value)]) = (ofList settings).set key value :=
  setAll_append settings [(key, value)] {}

theorem Built.eq_ofList (h : Built settings conf) : conf = .ofList settings := by
  induction h with
  | ofList settings => rfl
  | set built key value ih => rw [Configuration.ofList_concat, ih]

/-- Later settings do not tell apart what answers alike. -/
theorem get?_setAll_congr (h : ∀ key, conf.get? key = conf'.get? key)
    (settings : List (String × String)) (key : String) :
    (conf.setAll settings).get? key = (conf'.setAll settings).get? key := by
  induction settings generalizing conf conf' with
  | nil => exact h key
  | cons setting settings ih =>
    apply ih
    intro key
    rw [get?_set, get?_set, h key]

theorem get?_set_set {first second : String × String}
    (h : Key.modern first.1 ≠ Key.modern second.1)
    (conf : Configuration) (key : String) :
    ((conf.set first.1 first.2).set second.1 second.2).get? key =
      ((conf.set second.1 second.2).set first.1 first.2).get? key := by
  rw [get?_set, get?_set, get?_set, get?_set]
  by_cases hsecond : Key.modern key = Key.modern second.1
  · have hfirst : Key.modern key ≠ Key.modern first.1 := fun hkey => h (hkey.symm.trans hsecond)
    rw [if_pos hsecond, if_neg hfirst, if_pos hsecond]
  · rw [if_neg hsecond, if_neg hsecond]

theorem setAll_of_respells {settings' : List (String × String)}
    (h : List.Forall₂ Respells settings settings') (conf : Configuration) :
    conf.setAll settings = conf.setAll settings' := by
  induction h generalizing conf with
  | nil => rfl
  | @cons setting setting' settings settings' hsetting _ ih =>
    obtain ⟨haliases, hvalue⟩ := hsetting
    calc conf.setAll (setting :: settings)
      _ = (conf.set setting.1 setting.2).setAll settings := rfl
      _ = (conf.set setting'.1 setting'.2).setAll settings := by
        rw [set_of_aliases haliases, hvalue]
      _ = conf.setAll (setting' :: settings') := ih _

theorem get?_ofList (settings : List (String × String)) (key : String) :
    (ofList settings).get? key =
      (settings.reverse.find? fun setting => Key.modern setting.1 = Key.modern key).map
        Prod.snd := by
  induction settings using List.reverseRecOn with
  | nil => rfl
  | append_singleton settings setting ih =>
    rw [ofList_concat, get?_set, List.reverse_concat, ih]
    by_cases hname : Key.modern key = Key.modern setting.1
    · rw [if_pos hname, List.find?_cons_of_pos (by simpa using hname.symm)]
      rfl
    · rw [if_neg hname, List.find?_cons_of_neg (by simpa using Ne.symm hname)]

theorem get?_ofList_eq_some_iff {value : String} :
    (ofList settings).get? key = some value ↔ SetsLast settings key value := by
  rw [get?_ofList, SetsLast]
  constructor
  · intro h
    obtain ⟨⟨name, held⟩, hfind, rfl⟩ := Option.map_eq_some_iff.mp h
    obtain ⟨hname, after, before, hreverse, hafter⟩ := List.find?_eq_some_iff_append.mp hfind
    refine ⟨before.reverse, name, after.reverse, ?_, by simpa using hname, ?_⟩
    · rw [← List.reverse_reverse settings, hreverse]
      simp
    · intro setting hsetting
      simpa using hafter setting (List.mem_reverse.mp hsetting)
  · intro h
    obtain ⟨before, name, after, rfl, hname, hafter⟩ := h
    apply Option.map_eq_some_iff.mpr
    refine ⟨(name, value), List.find?_eq_some_iff_append.mpr ⟨by simpa using hname, ?_⟩, rfl⟩
    refine ⟨after.reverse, before.reverse, by simp, ?_⟩
    intro setting hsetting
    simpa using hafter setting (List.mem_reverse.mp hsetting)

theorem get?_ofList_eq_none_iff : (ofList settings).get? key = none ↔
    ∀ setting ∈ settings, Key.modern setting.1 ≠ Key.modern key := by
  rw [get?_ofList, Option.map_eq_none_iff, List.find?_eq_none]
  simp

/-- Each name is held once, and only what was set is held. -/
theorem names_ofList (settings : List (String × String)) : (ofList settings).names.Nodup ∧
    (ofList settings).names.toFinset =
      (settings.map fun setting => Key.modern setting.1).toFinset := by
  induction settings using List.reverseRecOn with
  | nil => exact ⟨List.nodup_nil, rfl⟩
  | append_singleton settings setting ih =>
    obtain ⟨hnodup, hnames⟩ := ih
    rw [ofList_concat, names_set]
    constructor
    · rw [List.nodup_cons]
      exact ⟨by simp, hnodup.filter _⟩
    · ext name
      have hheld : name ∈ (ofList settings).names ↔
          name ∈ settings.map fun setting => Key.modern setting.1 := by
        rw [← List.mem_toFinset, hnames, List.mem_toFinset]
      by_cases hname : name = Key.modern setting.1 <;> simp [hname, hheld]

theorem size_ofList (settings : List (String × String)) : (ofList settings).size =
    (settings.map fun setting => Key.modern setting.1).toFinset.card := by
  obtain ⟨hnodup, hnames⟩ := names_ofList settings
  calc (ofList settings).size
    _ = (ofList settings).names.length := (length_names _).symm
    _ = (ofList settings).names.toFinset.card := (List.toFinset_card_of_nodup hnodup).symm
    _ = _ := by rw [hnames]

theorem isEmpty_iff_size (conf : Configuration) : conf.isEmpty = true ↔ conf.size = 0 := by
  unfold isEmpty size
  rw [List.isEmpty_iff, List.length_eq_zero_iff]

theorem isEmpty_ofList : (ofList settings).isEmpty = true ↔ settings = [] := by
  rw [isEmpty_iff_size, size_ofList, Finset.card_eq_zero, List.toFinset_eq_empty_iff,
    List.map_eq_nil_iff]

/-! What two configurations answer. -/

theorem readsAlike_int? (h : conf.get? key = conf'.get? key') :
    ReadsAlike key key' (conf.int? key) (conf'.int? key') := by
  unfold int?
  rw [h]
  cases conf'.get? key' with
  | none => exact .number none
  | some value =>
    dsimp only
    cases Numeral.signed64? (Blank.trim value.toList) with
    | none => exact .unreadable value
    | some n => exact .number (some n)

theorem readsAlike_intOr (h : conf.get? key = conf'.get? key') (default : Int) :
    ReadsAlike key key' (conf.intOr key default) (conf'.intOr key' default) := by
  have hread := readsAlike_int? h
  unfold intOr
  generalize conf.int? key = found at hread
  generalize conf'.int? key' = found' at hread
  cases hread with
  | number n => exact .number (n.getD default)
  | unreadable value => exact .unreadable value

/-- Nothing but the values of keys counts for a session. -/
theorem connect_of_get? (h : ∀ key, conf.get? key = conf'.get? key) (settings : Settings)
    (processUser : String) {σ : Type} (link : Link σ) :
    ({ settings with conf } : Settings).connect processUser link =
      ({ settings with conf := conf' } : Settings).connect processUser link := by
  have hprofile : ({ settings with conf } : Settings).profile processUser =
      ({ settings with conf := conf' } : Settings).profile processUser := by
    simp only [Settings.profile, Settings.nameNodeText, Settings.address, Settings.umask,
      Settings.deadNodeMillis, intOr, int?, h]
  rw [Settings.connect, Settings.connect, hprofile]

/-- It is enough that they hold the same values, and as many. -/
theorem agrees_of_get? (h : ∀ key, conf.get? key = conf'.get? key)
    (hsize : conf.size = conf'.size) : conf.Agrees conf' := by
  have hget (key key' : String) (haliases : Key.Aliases key key') :
      conf.get? key = conf'.get? key' := by
    rw [h, get?, get?, Key.modern_eq_modern_iff.mpr haliases]
  refine ⟨hget, ?_, ?_, hsize, ?_, connect_of_get? h⟩
  · intro key key' haliases
    exact readsAlike_int? (hget key key' haliases)
  · intro key key' default haliases
    exact readsAlike_intOr (hget key key' haliases) default
  · rw [Bool.eq_iff_iff, isEmpty_iff_size, isEmpty_iff_size, hsize]

theorem agrees_of_swap {first second : String × String}
    (h : Key.modern first.1 ≠ Key.modern second.1)
    (before after : List (String × String)) :
    (ofList (before ++ first :: second :: after)).Agrees
      (ofList (before ++ second :: first :: after)) := by
  apply agrees_of_get?
  · intro key
    have hbefore (settings : List (String × String)) :
        ofList (before ++ settings) = (ofList before).setAll settings := setAll_append _ _ _
    rw [hbefore, hbefore]
    exact get?_setAll_congr (get?_set_set h (ofList before)) after key
  · have hperm : (before ++ first :: second :: after).Perm (before ++ second :: first :: after) :=
      (List.Perm.swap second first after).append_left before
    rw [size_ofList, size_ofList, List.toFinset_eq_of_perm _ _ (hperm.map _)]

/-- A key has the value that was set last under one of its names, or none if it was never set, and
there are as many values as different keys that were set. Whichever of its names a key has in a
setting or in a question, the answer is the same, but for the name in the text of an error. Two
settings of different keys can change places. -/
theorem last_setting_wins (h : Built settings conf) :
    (∀ key key', Key.modern key = Key.modern key' ↔ Key.Aliases key key') ∧
    (∀ key value, conf.get? key = some value ↔ SetsLast settings key value) ∧
    (∀ key, conf.get? key = none ↔
      ∀ setting ∈ settings, Key.modern setting.1 ≠ Key.modern key) ∧
    conf.size = (settings.map fun setting => Key.modern setting.1).toFinset.card ∧
    (conf.isEmpty = true ↔ settings = []) ∧
    (∀ settings' conf', Built settings' conf' → List.Forall₂ Respells settings settings' →
      conf.Agrees conf') ∧
    ∀ before first second after conf', settings = before ++ first :: second :: after →
      Key.modern first.1 ≠ Key.modern second.1 → Built (before ++ second :: first :: after) conf' →
        conf.Agrees conf' := by
  obtain rfl := h.eq_ofList
  refine ⟨fun key key' => Key.modern_eq_modern_iff, fun key value => get?_ofList_eq_some_iff,
    fun key => get?_ofList_eq_none_iff, size_ofList settings, isEmpty_ofList, ?_, ?_⟩
  -- Another name makes the very same entries, but settings that change places leave theirs in
  -- another order, so that only the answers are the same.
  · intro settings' conf' h' hrespells
    have hsame : ofList settings = conf' :=
      (setAll_of_respells hrespells {}).trans h'.eq_ofList.symm
    rw [← hsame]
    exact agrees_of_get? (fun key => rfl) rfl
  · intro before first second after conf' hsettings hdifferent h'
    rw [h'.eq_ofList, hsettings]
    exact agrees_of_swap hdifferent before after

/-- The old name of the mask counts like the new one. -/
theorem last_setting_wins_umask :
    let conf := ((ofList [("fs.permissions.umask-mode", "022")]).set "retries" "ten").set
      "dfs.umaskmode" "077"
    conf.get? "fs.permissions.umask-mode" = some "077" ∧ conf.get? "fs.defaultFS" = none ∧
      conf.size = 2 ∧
      conf.Agrees (ofList [("dfs.umaskmode", "022"), ("retries", "ten"),
        ("fs.permissions.umask-mode", "077")]) ∧
      conf.Agrees (ofList [("fs.permissions.umask-mode", "022"), ("dfs.umaskmode", "077"),
        ("retries", "ten")]) := by
  have hbuilt : Built [("fs.permissions.umask-mode", "022"), ("retries", "ten"),
      ("dfs.umaskmode", "077")] _ :=
    .set (.set (.ofList [("fs.permissions.umask-mode", "022")]) "retries" "ten")
      "dfs.umaskmode" "077"
  obtain ⟨-, hsome, hnone, hsize, -, hrespells, hswap⟩ := last_setting_wins hbuilt
  have hmask : Key.Aliases "fs.permissions.umask-mode" "dfs.umaskmode" := by decide
  refine ⟨?_, ?_, ?_, ?_, ?_⟩
  · apply (hsome _ _).mpr
    exact ⟨[("fs.permissions.umask-mode", "022"), ("retries", "ten")], "dfs.umaskmode", [], rfl,
      by decide, by decide⟩
  · apply (hnone _).mpr
    decide
  · rw [hsize]
    decide
  · apply hrespells _ _ (.ofList _)
    exact .cons ⟨hmask, rfl⟩ (.cons ⟨.inl rfl, rfl⟩ (.cons ⟨by decide, rfl⟩ .nil))
  · exact hswap [("fs.permissions.umask-mode", "022")] ("retries", "ten")
      ("dfs.umaskmode", "077") [] _ rfl (by decide) (.ofList _)

end Configuration

end MetaFs
