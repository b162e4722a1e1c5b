import Mathlib
import MetaFs.Export
import MetaFs.Link
/-! One page of a directory as an export answers it: the first names behind the cursor, in the order
of their bytes, and whether there are more. -/

namespace MetaFs

namespace Tree

variable {t : Tree} {directory path : TreePath} {name : Name}

/-- No two entries have the same path, and no entry has a name without bytes on its path. -/
structure Proper (t : Tree) : Prop where
  distinct : (t.entries.map Prod.fst).Nodup
  named : ∀ entry ∈ t.entries, [] ∉ entry.1

theorem childName?_eq_some :
    childName? directory path = some name ↔ path = directory ++ [name] := by
  rw [childName?]
  constructor
  · intro h
    split_ifs at h with hdirectory
    obtain ⟨front, hfront⟩ := List.getLast?_eq_some_iff.mp h
    rw [hfront, List.dropLast_concat] at hdirectory
    rw [hfront, hdirectory]
  · rintro rfl
    rw [List.dropLast_concat, if_pos rfl, List.getLast?_concat]

theorem mem_names : name ∈ t.names directory ↔ (t.get? (directory ++ [name])).isSome := by
  rw [names, List.mem_mergeSort, List.mem_filterMap, get?, List.lookup_isSome_iff]
  constructor
  · rintro ⟨entry, hentry, hname⟩
    exact ⟨entry, hentry, beq_iff_eq.mpr (childName?_eq_some.mp hname).symm⟩
  · rintro ⟨entry, hentry, hpath⟩
    exact ⟨entry, hentry, childName?_eq_some.mpr (beq_iff_eq.mp hpath).symm⟩

theorem nodup_names (proper : t.Proper) (directory : TreePath) : (t.names directory).Nodup := by
  rw [names, List.nodup_mergeSort]
  have hpaths : (t.entries.map Prod.fst).filterMap (childName? directory) =
      t.entries.filterMap fun entry => childName? directory entry.1 := by
    rw [List.filterMap_map]
    rfl
  rw [← hpaths]
  apply List.Nodup.filterMap _ proper.distinct
  intro path path' name hname hname'
  rw [childName?_eq_some.mp hname, childName?_eq_some.mp hname']

theorem pairwise_names (proper : t.Proper) (directory : TreePath) :
    (t.names directory).Pairwise (· < ·) := by
  have hle : (t.names directory).Pairwise (· ≤ ·) := List.pairwise_mergeSort' _ _
  exact hle.imp₂ (fun _ _ => Std.lt_of_le_of_ne) (nodup_names proper directory)

theorem nil_notMem_names (proper : t.Proper) (directory : TreePath) : [] ∉ t.names directory := by
  intro h
  obtain ⟨entry, hentry, hpath⟩ := List.lookup_isSome_iff.mp (mem_names.mp h)
  apply proper.named entry hentry
  rw [← beq_iff_eq.mp hpath]
  exact List.mem_append_right directory (List.mem_singleton.mpr rfl)

end Tree

namespace Page

def names (page : Page) : List Name :=
  page.entries.map fun status => status.path.bytes

/-- Where a page gets to: its last name, or the cursor that it starts behind if it has none. -/
def reach (page : Page) (after : Name) : Name :=
  page.names.getLast?.getD after

theorem reach_mem_names {page : Page} (h : page.names ≠ []) (after : Name) :
    page.reach after ∈ page.names := by
  rw [reach, List.getLast?_eq_some_getLast h]
  exact List.getLast_mem h

theorem not_reach_lt {page : Page} {name : Name} (sorted : page.names.Pairwise (· < ·))
    (hname : name ∈ page.names) (after : Name) : ¬page.reach after < name := by
  intro hlt
  obtain ⟨front, last, hfront⟩ : ∃ front last, page.names = front ++ [last] :=
    ⟨_, _, (List.dropLast_append_getLast (List.ne_nil_of_mem hname)).symm⟩
  rw [reach, hfront, List.getLast?_concat, Option.getD_some] at hlt
  rw [hfront] at sorted hname
  -- Any name but the last is before the last, since the names ascend.
  rcases List.mem_append.mp hname with hmem | hmem
  · have hbefore := (List.pairwise_append.mp sorted).2.2 name hmem _ (List.mem_singleton.mpr rfl)
    exact Std.lt_irrefl (Std.lt_trans hlt hbefore)
  · rw [List.mem_singleton.mp hmem] at hlt
    exact Std.lt_irrefl hlt

end Page

namespace Export

/-- Where the path of a request leads to, links at its end included. -/
def Leads (e : Export) (t : Tree) (src : String) (place : TreePath) : Prop :=
  ∃ below : List String, ExportPath.names src = .ok below ∧
    FileSystem.locate t e.caller true
      (e.root ++ below.map fun name => Utf8.encode name.toList) = .ok place

/-- The directory that the path of a request leads to has an entry of this name. -/
def Holds (e : Export) (t : Tree) (src : String) (name : Name) : Prop :=
  ∃ place : TreePath, e.Leads t src place ∧ (t.get? (place ++ [name])).isSome

variable {e : Export} {t u : Tree} {src : String} {place : TreePath}

theorem Leads.holds_iff (h : e.Leads t src place) (name : Name) :
    e.Holds t src name ↔ name ∈ t.names place := by
  rw [Tree.mem_names]
  constructor
  · rintro ⟨place', ⟨below', hbelow', hplace'⟩, hname⟩
    obtain ⟨below, hbelow, hplace⟩ := h
    obtain rfl := Except.ok.inj (hbelow.symm.trans hbelow')
    obtain rfl := Except.ok.inj (hplace.symm.trans hplace')
    exact hname
  · exact fun hname => ⟨place, h, hname⟩

section Calls

variable {α : Type} {a : α}

theorem run_ofExcept_eq_ok {x : Except Error α} (h : (ofExcept x).run.run t = (.ok a, u)) :
    x = .ok a ∧ u = t := by
  cases x with
  | error e => cases h
  | ok a' =>
    obtain ⟨ha, ht⟩ := Prod.mk.inj h
    exact ⟨congrArg Except.ok (Except.ok.inj ha), ht.symm⟩

theorem run_look_eq_ok {f : Tree → Except Fault α} (h : (look f).run.run t = (.ok a, u)) :
    f t = .ok a ∧ u = t := by
  obtain ⟨tree, t₁, hget, h⟩ := Over.run_bind_eq_ok h
  cases hget
  split at h
  · rename_i hf
    cases h
    exact ⟨hf, rfl⟩
  · cases h

theorem run_path_eq_ok {path : TreePath} (h : (e.path src).run.run t = (.ok path, u)) :
    ∃ below : List String, ExportPath.names src = .ok below ∧
      path = e.root ++ (below.map fun name => Utf8.encode name.toList) ∧ u = t := by
  obtain ⟨encoded, t₁, hnames, hpath⟩ := Over.run_bind_eq_ok h
  obtain ⟨below, t₂, hbelow, hencoded⟩ := Over.run_bind_eq_ok hnames
  obtain ⟨hok, rfl⟩ := run_ofExcept_eq_ok hbelow
  cases hencoded
  cases hpath
  exact ⟨below, hok, rfl, rfl⟩

/-- Looking a node up changes nothing. -/
theorem state_lookup {found : Option Node} (h : (e.lookup src).run.run t = (.ok found, u)) :
    u = t := by
  obtain ⟨path, t₁, hpath, hfound⟩ := Over.run_bind_eq_ok h
  obtain ⟨-, -, -, rfl⟩ := run_path_eq_ok hpath
  obtain ⟨tree, t₂, hget, hstatus⟩ := Over.run_bind_eq_ok hfound
  cases hget
  split at hstatus
  · cases hstatus
    rfl
  · split_ifs at hstatus
    · cases hstatus
      rfl
    · cases hstatus

theorem list_eq_ok {path : TreePath} {names : List Name}
    (h : FileSystem.list t e.caller path = .ok names) :
    ∃ place, FileSystem.locate t e.caller true path = .ok place ∧ names = t.names place := by
  rw [FileSystem.list] at h
  cases hplace : FileSystem.locate t e.caller true path with
  | error fault =>
    rw [hplace] at h
    cases h
  | ok place =>
    refine ⟨place, rfl, ?_⟩
    rw [hplace] at h
    simp only [bind, Except.bind, pure, Except.pure] at h
    split at h
    · cases h
    · split_ifs at h
      · cases h
      · cases h
        rfl
      · cases h

end Calls

/-- The entries of a page have the names that they were looked up by. -/
theorem names_of_run_mapM {directory : TreePath} {names : List Name} {entries : List FileStatus}
    (h : (names.mapM fun name => do
      let node ← look (FileSystem.status · e.caller (directory ++ [name]))
      return e.statusOf name node : Over Tree (List FileStatus)).run.run t = (.ok entries, u)) :
    entries.map (fun status => status.path.bytes) = names := by
  induction names generalizing t entries with
  | nil =>
    cases h
    rfl
  | cons name rest ih =>
    rw [List.mapM_cons] at h
    obtain ⟨status, t₁, hstatus, h⟩ := Over.run_bind_eq_ok h
    obtain ⟨others, t₂, hothers, h⟩ := Over.run_bind_eq_ok h
    obtain ⟨node, t₃, -, hnode⟩ := Over.run_bind_eq_ok hstatus
    cases hnode
    cases h
    rw [List.map_cons, ih hothers]
    rfl

/-- The page has the first names behind the cursor of the directory that the path leads to. -/
def Answers (e : Export) (t : Tree) (src : String) (after : Data) (page : Page) : Prop :=
  ∃ place : TreePath, e.Leads t src place ∧
    page.names = (pageNames e.listingLimit after.bytes (t.names place)).1 ∧
    page.remaining = UInt32.ofNat
      (min (pageNames e.listingLimit after.bytes (t.names place)).2 (UInt32.size - 1))

theorem answers_of_getListing {after : Data} {page : Page}
    (h : (e.getListing src after).run.run t = (.ok (.reply (.getListing (some page))), u)) :
    e.Answers t src after page := by
  obtain ⟨directory, t₁, hdirectory, h⟩ := Over.run_bind_eq_ok h
  obtain ⟨below, hbelow, hpath, ht⟩ := run_path_eq_ok hdirectory
  obtain ⟨found, t₂, hfound, h⟩ := Over.run_bind_eq_ok h
  -- The path and the node are looked up without a change, so that one tree answers throughout.
  have hstate := state_lookup hfound
  subst hpath ht hstate
  cases found with
  | none => cases h
  | some node =>
    dsimp only at h
    split_ifs at h with hguard
    · obtain ⟨_, _, hrefuse, -⟩ := Over.run_bind_eq_ok h
      cases hrefuse
    · obtain ⟨all, t₃, hall, h⟩ := Over.run_bind_eq_ok h
      obtain ⟨hlist, rfl⟩ := run_look_eq_ok hall
      obtain ⟨place, hplace, rfl⟩ := list_eq_ok hlist
      obtain ⟨entries, t₄, hentries, hpage⟩ := Over.run_bind_eq_ok h
      cases hpage
      exact ⟨place, ⟨below, hbelow, hplace⟩, names_of_run_mapM hentries, rfl⟩

section PageNames

variable {limit : ℕ} {after name : Name} {all : List Name}

theorem pairwise_pageNames (sorted : all.Pairwise (· < ·)) :
    (pageNames limit after all).1.Pairwise (· < ·) :=
  (sorted.filter _).sublist (List.take_sublist _ _)

theorem mem_of_mem_pageNames (h : name ∈ (pageNames limit after all).1) :
    name ∈ all ∧ after < name := by
  have hlater : name ∈ all.filter (after < ·) := List.mem_of_mem_take h
  rw [List.mem_filter, decide_eq_true_eq] at hlater
  exact hlater

/-- What a page leaves out comes behind all that it has. -/
theorem lt_of_mem_drop (sorted : all.Pairwise (· < ·))
    (h : name ∈ (all.filter (after < ·)).drop limit) :
    ∀ earlier ∈ (pageNames limit after all).1, earlier < name := by
  have hlater : (all.filter (after < ·)).Pairwise (· < ·) := sorted.filter _
  rw [← List.take_append_drop limit (all.filter (after < ·)), List.pairwise_append] at hlater
  intro earlier hearlier
  exact hlater.2.2 earlier hearlier name h

theorem mem_pageNames_or (limit : ℕ) (sorted : all.Pairwise (· < ·)) (hname : name ∈ all)
    (hafter : after < name) : name ∈ (pageNames limit after all).1 ∨
      0 < (pageNames limit after all).2 ∧
        ∀ earlier ∈ (pageNames limit after all).1, earlier < name := by
  have hlater : name ∈ all.filter (after < ·) :=
    List.mem_filter.mpr ⟨hname, decide_eq_true hafter⟩
  rw [← List.take_append_drop limit (all.filter (after < ·)), List.mem_append] at hlater
  rcases hlater with htake | hdrop
  · exact .inl htake
  · refine .inr ⟨?_, lt_of_mem_drop sorted hdrop⟩
    have hlength := List.length_pos_of_mem hdrop
    rw [List.length_drop] at hlength
    exact hlength

theorem exists_of_left (sorted : all.Pairwise (· < ·))
    (hleft : 0 < (pageNames limit after all).2) : ∃ name ∈ all, after < name ∧
      ∀ earlier ∈ (pageNames limit after all).1, earlier < name := by
  have hlength : 0 < ((all.filter (after < ·)).drop limit).length := by
    rw [List.length_drop]
    exact hleft
  obtain ⟨name, hdrop⟩ := List.exists_mem_of_length_pos hlength
  have hlater := List.mem_filter.mp (List.mem_of_mem_drop hdrop)
  exact ⟨name, hlater.1, of_decide_eq_true hlater.2, lt_of_mem_drop sorted hdrop⟩

/-- As long as something is left, there is something on the page. -/
theorem pageNames_ne_nil (hlimit : 0 < limit) (hleft : 0 < (pageNames limit after all).2) :
    (pageNames limit after all).1 ≠ [] := by
  intro hnil
  have hlength := congrArg List.length hnil
  simp only [pageNames, List.length_take, List.length_nil] at hleft hlength
  omega

end PageNames

namespace Answers

variable {after : Data} {page : Page} {name : Name}

theorem pairwise_names (h : e.Answers t src after page) (proper : t.Proper) :
    page.names.Pairwise (· < ·) := by
  obtain ⟨place, -, hnames, -⟩ := h
  rw [hnames]
  exact pairwise_pageNames (t.pairwise_names proper place)

theorem holds (h : e.Answers t src after page) (hname : name ∈ page.names) :
    e.Holds t src name ∧ after.bytes < name := by
  obtain ⟨place, hplace, hnames, -⟩ := h
  rw [hnames] at hname
  have hmem := mem_of_mem_pageNames hname
  exact ⟨(hplace.holds_iff name).mpr hmem.1, hmem.2⟩

theorem left_pos_iff (h : e.Answers t src after page) : ∃ place : TreePath,
    e.Leads t src place ∧
    page.names = (pageNames e.listingLimit after.bytes (t.names place)).1 ∧
    (0 < (pageNames e.listingLimit after.bytes (t.names place)).2 ↔ page.remaining ≠ 0) := by
  obtain ⟨place, hplace, hnames, hremaining⟩ := h
  refine ⟨place, hplace, hnames, ?_⟩
  rw [hremaining]
  -- The count stops at the largest number of 32 bits, and so does not come round to zero.
  generalize (pageNames e.listingLimit after.bytes (t.names place)).2 = left
  have hlt : min left (UInt32.size - 1) < UInt32.size :=
    lt_of_le_of_lt (min_le_right _ _) (by decide)
  rw [ne_eq, ← UInt32.toNat_inj, UInt32.toNat_ofNat_of_lt' hlt]
  simp only [UInt32.toNat_zero, UInt32.size]
  omega

variable (limited : 0 < e.listingLimit) (proper : t.Proper)
include limited proper

/-- A name behind the cursor is on the page, or the page says that there is more and stops before
the name. -/
theorem mem_names_or (h : e.Answers t src after page) (hname : e.Holds t src name)
    (hafter : after.bytes < name) :
    name ∈ page.names ∨ page.remaining ≠ 0 ∧ page.names ≠ [] ∧ page.reach after.bytes < name := by
  obtain ⟨place, hplace, hnames, hleft⟩ := h.left_pos_iff
  have hmem := (hplace.holds_iff name).mp hname
  rcases mem_pageNames_or e.listingLimit (t.pairwise_names proper place) hmem hafter with
    hpage | ⟨hmore, hbefore⟩
  · rw [← hnames] at hpage
    exact .inl hpage
  · have hne := pageNames_ne_nil limited hmore
    rw [← hnames] at hbefore hne
    exact .inr ⟨hleft.mp hmore, hne, hbefore _ (Page.reach_mem_names hne _)⟩

theorem remaining_eq_zero_iff (h : e.Answers t src after page) :
    page.remaining = 0 ↔ ∀ name, e.Holds t src name → ¬page.reach after.bytes < name := by
  obtain ⟨place, hplace, hnames, hleft⟩ := h.left_pos_iff
  have hsorted := t.pairwise_names proper place
  constructor
  · intro hzero name hname hreach
    -- The reach is not before the cursor, so that the page would not have left the name out.
    have hafter : after.bytes < name := by
      by_cases hnil : page.names = []
      · rwa [Page.reach, hnil] at hreach
      · exact Std.lt_trans (h.holds (Page.reach_mem_names hnil _)).2 hreach
    rcases h.mem_names_or limited proper hname hafter with hmem | ⟨hmore, -⟩
    · exact Page.not_reach_lt (h.pairwise_names proper) hmem _ hreach
    · exact hmore hzero
  · intro hnone
    by_contra hmore
    have hpos := hleft.mpr hmore
    obtain ⟨name, hmem, -, hbefore⟩ := exists_of_left hsorted hpos
    have hne := pageNames_ne_nil limited hpos
    rw [← hnames] at hbefore hne
    exact hnone name ((hplace.holds_iff name).mpr hmem) (hbefore _ (Page.reach_mem_names hne _))

end Answers

end Export

end MetaFs
