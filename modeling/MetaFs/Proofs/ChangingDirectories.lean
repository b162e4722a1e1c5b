import Mathlib
import MetaFs.Proofs.ExportPages
import MetaFs.Proofs.Pages
/-! A directory that others change while it is listed. Every page starts behind the last name of the
page before it, so that nothing is listed twice and nothing that stays is missed. -/

namespace MetaFs

theorem Page.cursor_bytes {page : Page} (continues : page.Continues) (after : Name) :
    page.cursor.bytes = page.reach after := by
  have hlast := List.getLast?_eq_some_getLast continues.1
  rw [cursor, reach, names, List.getLast?_map, hlast]
  rfl

namespace Export

/-- The way to an export whose tree others change: the request number `n` finds the tree number
`n`. -/
def amid (e : Export) (trees : ℕ → Tree) : Link ℕ where
  start _ _ := return
  call request := ExceptT.mk do
    let n ← get
    set (n + 1)
    return ((e.namesystem request).run (trees n)).1
  finish := return

/-- The pages that the requests get one after the other, from a request and a cursor on. -/
inductive Paged (e : Export) (trees : ℕ → Tree) (path : String) : ℕ → Data → List Page → Prop where
  | last {n : ℕ} {cursor : Data} {page : Page}
      (asked : ((e.amid trees).call (.getListing path cursor false)).run.run n =
        (page.reply, n + 1))
      (ends : page.remaining = 0) : Paged e trees path n cursor [page]
  | more {n : ℕ} {cursor : Data} {page : Page} {pages : List Page}
      (asked : ((e.amid trees).call (.getListing path cursor false)).run.run n =
        (page.reply, n + 1))
      (continues : page.Continues) (rest : Paged e trees path (n + 1) page.cursor pages) :
      Paged e trees path n cursor (page :: pages)

variable {e : Export} {trees : ℕ → Tree} {path front : String} {n : ℕ} {cursor : Data}
  {page : Page} {pages : List Page}

theorem answers_of_asked (h : ((e.amid trees).call (.getListing path cursor false)).run.run n =
    (page.reply, n + 1)) : e.Answers (trees n) path cursor page := by
  have hreply : ((e.getListing path cursor).run.run (trees n)).1 = page.reply :=
    (Prod.mk.inj h).1
  exact answers_of_getListing (Prod.ext hreply rfl)

/-- A listing that succeeds has been given pages up to a last one. -/
theorem paged_of_run_listFrom {bound next : ℕ} {before infos : List FileInfo}
    (h : (Session.listFrom (e.amid trees) path front bound cursor before).run.run n =
      (.ok (some infos), next)) :
    ∃ pages : List Page, e.Paged trees path n cursor pages ∧
      infos = before ++ pages.flatMap (Page.infos front) ∧ next = n + pages.length := by
  -- The number of the next request and what was listed so far go along with the bound.
  induction bound generalizing n cursor before with
  | zero => cases h
  | succ bound ih =>
    obtain ⟨reply, hcall⟩ : ∃ reply,
        ((e.amid trees).call (.getListing path cursor false)).run.run n = (reply, n + 1) :=
      ⟨_, rfl⟩
    rcases Session.reply_cases path cursor reply with
      ⟨page, rfl, hcont⟩ | ⟨page, rfl, hends⟩ | ⟨error, hbreaks⟩
    · rw [Session.run_listFrom_of_continues bound hcont hcall] at h
      obtain ⟨pages, hpaged, hinfos, hnext⟩ := ih h
      refine ⟨page :: pages, .more hcall hcont hpaged, ?_, ?_⟩
      · rw [hinfos, List.append_assoc, List.flatMap_cons]
      · rw [hnext, List.length_cons]
        omega
    · rw [Session.run_listFrom_of_ends bound hends hcall] at h
      cases h
      exact ⟨[page], .last hcall hends, by rw [List.flatMap_singleton], rfl⟩
    · rw [Session.run_listFrom_of_breaks bound hbreaks hcall] at h
      cases h

namespace Paged

theorem holds (h : e.Paged trees path n cursor pages) (i : ℕ) (hi : i < pages.length) :
    ∀ name ∈ pages[i].names, e.Holds (trees (n + i)) path name := by
  -- Request `n + i` made page `i`, which is page `i - 1` of the pages behind the first.
  induction h generalizing i with
  | last asked ends =>
    intro name hname
    obtain rfl : i = 0 := Nat.lt_one_iff.mp hi
    exact ((answers_of_asked asked).holds hname).1
  | @more n cursor page pages asked continues rest ih =>
    cases i with
    | zero => exact fun name hname => ((answers_of_asked asked).holds hname).1
    | succ i =>
      have htree : n + (i + 1) = n + 1 + i := by omega
      rw [htree]
      exact ih i (Nat.lt_of_succ_lt_succ hi)

variable (proper : ∀ n, (trees n).Proper)
include proper

theorem pairwise_names (h : e.Paged trees path n cursor pages) :
    (pages.flatMap Page.names).Pairwise (· < ·) ∧
      ∀ name ∈ pages.flatMap Page.names, cursor.bytes < name := by
  -- That all names are behind the cursor goes along: it keeps later pages from names of earlier
  -- ones, whatever the directory has become.
  induction h with
  | @last n cursor page asked ends =>
    have hanswers := answers_of_asked asked
    rw [List.flatMap_singleton]
    exact ⟨hanswers.pairwise_names (proper n), fun name hname => (hanswers.holds hname).2⟩
  | @more n cursor page pages asked continues rest ih =>
    have hanswers := answers_of_asked asked
    have hpage := hanswers.pairwise_names (proper n)
    have hne : page.names ≠ [] := fun hnil => continues.1 (List.map_eq_nil_iff.mp hnil)
    have hreach := Page.cursor_bytes continues cursor.bytes
    have hcursor : cursor.bytes < page.cursor.bytes := by
      rw [hreach]
      exact (hanswers.holds (Page.reach_mem_names hne _)).2
    rw [List.flatMap_cons]
    constructor
    · refine List.pairwise_append.mpr ⟨hpage, ih.1, fun name hname later hlater => ?_⟩
      have hle : ¬page.cursor.bytes < name := by
        rw [hreach]
        exact Page.not_reach_lt hpage hname _
      exact Std.lt_of_le_of_lt (Std.not_lt.mp hle) (ih.2 later hlater)
    · intro name hname
      rcases List.mem_append.mp hname with hmem | hmem
      · exact (hanswers.holds hmem).2
      · exact Std.lt_trans hcursor (ih.2 name hmem)

/-- A name that is there whenever a page is made is on one of the pages: on the first one whose last
name is not before it. -/
theorem mem_names (limited : 0 < e.listingLimit) (h : e.Paged trees path n cursor pages)
    {name : Name} (hafter : cursor.bytes < name)
    (stays : ∀ i < pages.length, e.Holds (trees (n + i)) path name) :
    name ∈ pages.flatMap Page.names := by
  induction h with
  | @last n cursor page asked ends =>
    rw [List.flatMap_singleton]
    rcases (answers_of_asked asked).mem_names_or limited (proper n)
      (stays 0 (Nat.lt_succ_self 0)) hafter with hmem | ⟨hmore, -⟩
    · exact hmem
    · exact absurd ends hmore
  | @more n cursor page pages asked continues rest ih =>
    rw [List.flatMap_cons, List.mem_append]
    rcases (answers_of_asked asked).mem_names_or limited (proper n)
      (stays 0 (Nat.succ_pos _)) hafter with hmem | ⟨-, -, hreach⟩
    · exact .inl hmem
    -- The page stops before the name, which so is behind the next cursor too.
    · rw [← Page.cursor_bytes continues] at hreach
      refine .inr (ih hreach fun i hi => ?_)
      have htree : n + 1 + i = n + (i + 1) := by omega
      rw [htree]
      exact stays (i + 1) (Nat.succ_lt_succ hi)

end Paged

end Export

namespace Session

theorem resolve_of_run_path {σ : Type} {s : Session} {operation given path : String}
    {state next : σ}
    (h : (s.path operation given : Over σ String).run.run state = (.ok path, next)) :
    s.workingDirectory.resolve given = .ok path := by
  rw [Session.path] at h
  cases hresolve : s.workingDirectory.resolve given with
  | error error =>
    rw [hresolve] at h
    cases h
  | ok path' =>
    rw [hresolve] at h
    cases h
    rfl

/-- A directory that changes between the pages of a listing is listed in the order of its names.
Each name was there when its page was made, and no name that is there all the time is left out. A
page says that nothing is left exactly if there is no name behind its own. -/
theorem listDirectory_amid (s : Session) (e : Export) (trees : ℕ → Tree) (bound start : ℕ)
    (given : String) (limited : 0 < e.listingLimit) (proper : ∀ n, (trees n).Proper) :
    (∀ infos next, (s.listDirectory (e.amid trees) bound given).run.run start =
        (.ok (some infos), next) →
      ∃ (path : String) (pages : List Page), s.workingDirectory.resolve given = .ok path ∧
        e.Paged trees path start {} pages ∧ next = start + pages.length ∧
        infos = pages.flatMap (Page.infos (s.entryFront path)) ∧
        (pages.flatMap Page.names).Pairwise (· < ·) ∧
        (∀ (i : ℕ) (hi : i < pages.length), ∀ name ∈ pages[i].names,
          e.Holds (trees (start + i)) path name) ∧
        (∀ name, (∀ i < pages.length, e.Holds (trees (start + i)) path name) →
          name ∈ pages.flatMap Page.names)) ∧
    (∀ (n : ℕ) (src : String) (after : Data) (page : Page),
      ((e.getListing src after).run.run (trees n)).1 = page.reply →
        (page.remaining = 0 ↔
          ∀ name, e.Holds (trees n) src name → ¬page.reach after.bytes < name)) := by
  constructor
  · intro infos next hrun
    obtain ⟨path, n, hpath, -⟩ := Over.run_bind_eq_ok hrun
    have hresolve := resolve_of_run_path hpath
    rw [run_listDirectory s (e.amid trees) bound hresolve] at hrun
    obtain ⟨pages, hpaged, hinfos, hnext⟩ := Export.paged_of_run_listFrom hrun
    refine ⟨path, pages, hresolve, hpaged, hnext, hinfos, (hpaged.pairwise_names proper).1,
      hpaged.holds, fun name stays => ?_⟩
    have hpos : 0 < pages.length := by cases hpaged <;> exact Nat.succ_pos _
    -- The first cursor is empty, and no name is.
    have hname : name ≠ [] := by
      rintro rfl
      obtain ⟨place, hplace, hsome⟩ := stays 0 hpos
      exact (trees start).nil_notMem_names (proper start) place (Tree.mem_names.mpr hsome)
    obtain ⟨b, rest, rfl⟩ := List.exists_cons_of_ne_nil hname
    exact hpaged.mem_names proper limited (List.nil_lt_cons b rest) stays
  · intro n src after page hreply
    have hanswers : e.Answers (trees n) src after page :=
      Export.answers_of_getListing (Prod.ext hreply rfl)
    exact hanswers.remaining_eq_zero_iff limited (proper n)

def sampleFile (name : Name) : TreePath × Node :=
  ([name], { kind := .file 1, mode := 0o644 })

/-- While the first page is made there are the names `a`, `b` and one that is no text; then `a` goes
and `c` comes. -/
def sampleTrees : ℕ → Tree
  | 0 => { entries := [([], { kind := .directory, mode := 0o755 }), sampleFile [255],
      sampleFile [98], sampleFile [97]] }
  | _ + 1 => { entries := [([], { kind := .directory, mode := 0o755 }), sampleFile [99],
      sampleFile [255], sampleFile [98]] }

def sampleExport : Export where
  root := []
  listingLimit := 2
  blockSize := 0

def sampleRecord (name : Name) : FileStatus :=
  sampleExport.statusOf name (sampleFile name).2

def sampleInfos : List FileInfo :=
  [[97], [98], [99], [255]].map fun name => FileInfo.ofStatus (sampleRecord name) "hdfs://nn/"

theorem listDirectory_amid_sample :
    0 < sampleExport.listingLimit ∧ (∀ n, (sampleTrees n).Proper) ∧
    (sampleSession.listDirectory (sampleExport.amid sampleTrees) 3 "/").run.run 0 =
      (.ok (some sampleInfos), 2) ∧
    (∃ (path : String) (pages : List Page), sampleExport.Paged sampleTrees path 0 {} pages ∧
      2 = 0 + pages.length ∧ (pages.flatMap Page.names).Pairwise (· < ·)) ∧
    ((sampleExport.getListing "/" ⟨[98]⟩).run.run (sampleTrees 0)).1 =
      (⟨[sampleRecord [255]], 0⟩ : Page).reply ∧
    ∀ name, sampleExport.Holds (sampleTrees 0) "/" name →
      ¬(⟨[sampleRecord [255]], 0⟩ : Page).reach [98] < name := by
  have limited : 0 < sampleExport.listingLimit := by decide
  have proper : ∀ n, (sampleTrees n).Proper := by
    have first : (sampleTrees 0).Proper := ⟨by decide, by decide⟩
    have later : (sampleTrees 1).Proper := ⟨by decide, by decide⟩
    intro n
    cases n with
    | zero => exact first
    | succ n => exact later
  have hrun : (sampleSession.listDirectory (sampleExport.amid sampleTrees) 3 "/").run.run 0 =
      (.ok (some sampleInfos), 2) := by cbv
  have hreply : ((sampleExport.getListing "/" ⟨[98]⟩).run.run (sampleTrees 0)).1 =
      (⟨[sampleRecord [255]], 0⟩ : Page).reply := by cbv
  obtain ⟨hlisted, hremaining⟩ :=
    listDirectory_amid sampleSession sampleExport sampleTrees 3 0 "/" limited proper
  obtain ⟨path, pages, -, hpaged, hlength, -, hsorted, -⟩ := hlisted sampleInfos 2 hrun
  exact ⟨limited, proper, hrun, ⟨path, pages, hpaged, hlength, hsorted⟩, hreply,
    (hremaining 0 "/" ⟨[98]⟩ _ hreply).mp rfl⟩

end Session

end MetaFs
