import Mathlib
import MetaFs.Proofs.Deleting
import MetaFs.Proofs.MakingDirectories
/-! What a request to rename without overwriting moves: an object to where nothing is, with all that
is in it. In every other case it leaves the tree as it is. Whether the object would come to be in
itself is a question of places: a path of names inside of it may lead out of it by a link. -/

namespace MetaFs

namespace FileSystem

open MetaFs.Tree

variable {t u : Tree} {who : Caller} {here place path path' old new : TreePath} {name : Name}
  {names : List Name} {followLast : Bool} {links : ℕ} {node : Node}

/-- Where all that a walk has found is kept, it leads to the same place. -/
theorem walk_kept (h : t.WellFormed) :
    (∀ path, Visits t who followLast links here names path → (t.get? path).isSome →
      Kept t u path) →
    walk t who followLast links here names = .ok place →
      walk u who followLast links here names = .ok place := by
  induction links, here, names using walk_induction t who followLast with
  | nil links here =>
    intro _ hwalk
    rwa [walk_nil] at hwalk ⊢
  | cons links here name rest ih =>
    intro kept hwalk
    obtain ⟨hsearch, hentry⟩ := leads_of_walk hwalk
    have hsearch' : search u who here = search t who here :=
      (kept here .here (isDirectory_of_search hsearch).isSome).search_eq
    have hturn : turn u who followLast links here name rest =
        turn t who followLast links here name rest := by
      refine turn_of_kept hsearch' fun hdot hdots => ?_
      have hsome := hentry hdot hdots
      have hplain := h.plain _ hsome name (List.mem_append_right here (List.mem_singleton.mpr rfl))
      exact kept _ (.there hsearch hplain) hsome
    rw [walk_cons] at hwalk ⊢
    rw [hturn]
    cases hnext : turn t who followLast links here name rest with
    | done result =>
      rw [hnext] at hwalk
      exact hwalk
    | on links' here' names' =>
      rw [hnext] at hwalk
      exact ih links' here' names' hnext
        (fun path hvisits => kept path (.later hnext hvisits)) hwalk

/-- What is done after a check that has not failed. -/
theorem eq_ok_of_guard {c : Prop} [Decidable c] {e : Errno} {x : Except Fault Tree}
    {f : Unit → Except Fault Tree} (h : (if c then fail e >>= f else x) = .ok u) :
    ¬c ∧ x = .ok u := by
  by_cases hc : c
  · rw [if_pos hc] at h
    cases h
  · rw [if_neg hc] at h
    exact ⟨hc, h⟩

/-- What a rename may do to a tree. -/
theorem rename_eq_ok (h : rename t who path path' = .ok u) :
    ∃ old new, Entry t who path old ∧ Entry t who path' new ∧ (t.get? old).isSome ∧
      (old = new ∨ ¬old <+: new ∧ u = (Edit.move old new).apply t) := by
  rw [rename] at h
  obtain ⟨_, -, h⟩ := eq_ok_of_bind h
  obtain ⟨_, -, h⟩ := eq_ok_of_bind h
  obtain ⟨⟨oldParent, oldName⟩, hold, h⟩ := eq_ok_of_bind h
  obtain ⟨⟨newParent, newName⟩, hnew, h⟩ := eq_ok_of_bind h
  obtain ⟨_, holdName, h⟩ := eq_ok_of_bind h
  dsimp only at h
  cases hnode : t.get? (oldParent ++ [oldName]) with
  | none =>
    rw [hnode] at h
    cases h
  | some node =>
    rw [hnode] at h
    obtain ⟨_, hnewName, h⟩ := eq_ok_of_bind h
    obtain ⟨hinward, h⟩ := eq_ok_of_guard h
    obtain ⟨-, h⟩ := eq_ok_of_guard h
    refine ⟨_, _, ⟨_, _, hold, holdName, rfl⟩, ⟨_, _, hnew, hnewName, rfl⟩, by rw [hnode]; rfl, ?_⟩
    by_cases heq : oldParent ++ [oldName] = newParent ++ [newName]
    · exact .inl heq
    rw [if_neg heq] at h
    obtain ⟨_, -, h⟩ := eq_ok_of_bind h
    obtain ⟨_, -, h⟩ := eq_ok_of_bind h
    refine .inr ⟨not_isPrefix_of_not_isBelow hinward heq, ?_⟩
    cases htarget : t.get? (newParent ++ [newName]) with
    | none =>
      rw [htarget] at h
      obtain ⟨-, h⟩ := eq_ok_of_guard h
      exact (Except.ok.inj h).symm
    | some other =>
      rw [htarget] at h
      obtain ⟨-, h⟩ := eq_ok_of_guard h
      obtain ⟨-, h⟩ := eq_ok_of_guard h
      obtain ⟨-, h⟩ := eq_ok_of_guard h
      obtain ⟨-, h⟩ := eq_ok_of_guard h
      exact (Except.ok.inj h).symm

/-- The path of a directory leads to the directory. -/
theorem resolve_of_isDirectory (h : t.WellFormed) (directory : t.IsDirectory place)
    (fits : check place = .ok ()) : resolve t place = .ok place := by
  have htop : t.IsDirectory [] := Export.isDirectory_of_above h directory List.nil_prefix
  have hclear : Clear t .superuser place := clear_of_privileged rfl place
  have hleads := leadsTo_locate h htop ⟨fits, h.plain place directory.isSome⟩ false
    (straight_of_isDirectory h directory) hclear
  rw [resolve]
  generalize locate t .superuser false place = result at hleads
  cases hleads with
  | there => rfl
  | missing absent => exact absurd absent (Option.isSome_iff_ne_none.mp directory.isSome)
  | blocked absent => exact absurd absent (Option.isSome_iff_ne_none.mp directory.isSome)

/-- Where all names but the last one are those of a directory, a path passes no other places than
that directory and those above. -/
theorem passes_of_isDirectory {front : TreePath} {last : Name} (h : t.WellFormed)
    (directory : t.IsDirectory front) (passes : Passes t (front ++ [last]) place) :
    place <+: front := by
  obtain ⟨other, name, heq, -, hvisits⟩ := passes
  obtain ⟨rfl, -⟩ := List.append_inj' heq rfl
  rw [← List.append_nil front] at hvisits
  rcases visits_of_isDirectory h directory hvisits with hbegins | hend
  · exact hbegins
  · cases hend
    exact List.prefix_rfl

/-- The permissions that are asked for to rename what a path leads to. -/
inductive RenameAsks (t : Tree) (path path' : TreePath) : TreePath → ℕ → Prop where
  | pass {place : TreePath} (passes : Passes t path place ∨ Passes t path' place) :
      RenameAsks t path path' place Caller.maySearch
  | change {parent : TreePath} {name : Name}
      (found : locateParent t .superuser path = .ok (parent, name) ∨
        locateParent t .superuser path' = .ok (parent, name)) :
      RenameAsks t path path' parent (Caller.mayWrite + Caller.maySearch)
  | move {old new : TreePath} (source : Entry t .superuser path old)
      (destination : Entry t .superuser path' new) (parents : old.dropLast ≠ new.dropLast) :
      RenameAsks t path path' old Caller.mayWrite

/-- What keeps a caller from renaming the object of the one path to the other path. -/
abbrev RenameBarred (t : Tree) (who : Caller) (path path' : TreePath) : Errno → Prop :=
  Barred t who (RenameAsks t path path') (Entry t .superuser path)

/-- There is an object for one path, and room for it at the entry that the other one names. -/
structure Renamable (t : Tree) (path path' old new : TreePath) : Prop where
  source : resolve t path = .ok old
  destination : Entry t .superuser path' new
  free : t.get? new = none
  outward : ¬old <+: new

/-- The same tree with all that is in one place in another. The directories that it was in and is in
now may have other times of their last changes. -/
structure Moved (old new : TreePath) (t u : Tree) : Prop where
  there : ∀ rest, u.get? (new ++ rest) = t.get? (old ++ rest)
  gone : ∀ place, old <+: place → u.get? place = none
  parent : Kept t u old.dropLast
  parent' : Kept t u new.dropLast
  elsewhere : ∀ place, ¬new <+: place → ¬old <+: place → place ≠ old.dropLast →
    place ≠ new.dropLast → u.get? place = t.get? place

/-- The directories that are dated are neither at the one place nor at the other, nor below. -/
theorem moved_apply_move (h : t.WellFormed) (hsome : (t.get? old).isSome)
    (free : t.get? new = none) (outward : ¬old <+: new) (hold : old ≠ []) :
    Moved old new t ((Edit.move old new).apply t) := by
  have hleaf : t.IsLeaf new := by
    apply h.isLeaf_of_not_isDirectory
    intro hnew
    exact Option.isSome_iff_ne_none.mp hnew.isSome free
  have hinward : ¬new <+: old := fun hbegins =>
    Option.isSome_iff_ne_none.mp (h.isSome_of_isPrefix hsome hbegins) free
  have hnew : new ≠ [] := fun hnil => hinward (hnil ▸ List.nil_prefix)
  have hchange {place : TreePath} (haside : ¬new <+: place) (haside' : ¬old <+: place) :
      ((Edit.move old new).change t).get? place = t.get? place := by
    rw [Edit.get?_change_move h hleaf outward, if_neg haside, if_neg haside']
  have hkept {place : TreePath} (haside : ¬new <+: place) (haside' : ¬old <+: place) :
      Kept t ((Edit.move old new).apply t) place :=
    (Kept.of_eq (hchange haside haside')).trans (Edit.kept_apply (.move old new) t place)
  have hparent : ¬new <+: old.dropLast :=
    fun hbegins => hinward (hbegins.trans (List.dropLast_prefix old))
  have hparent' : ¬old <+: new.dropLast :=
    fun hbegins => outward (hbegins.trans (List.dropLast_prefix new))
  refine ⟨fun rest => ?_, fun place hbegins => ?_, hkept hparent (not_isPrefix_dropLast hold),
    hkept (not_isPrefix_dropLast hnew) hparent', fun place haside haside' hne hne' => ?_⟩
  · rw [Edit.get?_apply_of_not_mem, Edit.get?_change_move_append h hleaf outward]
    intro hmem
    rcases List.mem_pair.mp hmem with heq | heq
    · exact hparent (heq ▸ List.prefix_append new rest)
    · exact not_isPrefix_dropLast hnew (heq ▸ List.prefix_append new rest)
  · have haside : ¬new <+: place := by
      intro hbegins'
      rcases List.prefix_or_prefix_of_prefix hbegins hbegins' with hprefix | hprefix
      · exact outward hprefix
      · exact hinward hprefix
    apply (Edit.kept_apply (.move old new) t place).eq_none
    rw [Edit.get?_change_move h hleaf outward, if_neg haside, if_pos hbegins]
  · rw [Edit.get?_apply_of_not_mem, hchange haside haside']
    intro hmem
    rcases List.mem_pair.mp hmem with heq | heq
    · exact hne heq
    · exact hne' heq

/-- What was there and has not been moved is still there. -/
theorem Moved.kept (moved : Moved old new t u) (h : t.WellFormed) (free : t.get? new = none)
    (hold : ¬old <+: place) (hsome : (t.get? place).isSome) : Kept t u place := by
  have hnew : ¬new <+: place := fun hbegins =>
    Option.isSome_iff_ne_none.mp (h.isSome_of_isPrefix hsome hbegins) free
  by_cases hparent : place = old.dropLast
  · rw [hparent]
    exact moved.parent
  by_cases hparent' : place = new.dropLast
  · rw [hparent']
    exact moved.parent'
  · exact .of_eq (moved.elsewhere place hnew hold hparent hparent')

namespace Renamable

variable (renamable : Renamable t path path' old new)
include renamable

theorem entry (proper : ∀ name ∈ path, name.Proper) :
    Entry t .superuser path old ∧ (t.get? old).isSome := by
  apply entry_of_locate proper _ renamable.source
  rintro rfl
  have hold := renamable.source
  rw [resolve, locate, walk_nil] at hold
  cases hold
  exact renamable.outward List.nil_prefix

theorem missing (proper : ∀ name ∈ path', name.Proper) : resolve t path' = fail .noent := by
  rw [resolve, locate_of_entry proper renamable.destination, renamable.free]

theorem rename_eq (h : t.WellFormed) (proper : ∀ name ∈ path, name.Proper) :
    rename t .superuser path path' = .ok ((Edit.move old new).apply t) := by
  obtain ⟨⟨parent, name, hparent, hname, rfl⟩, hsome⟩ := renamable.entry proper
  obtain ⟨parent', name', hparent', hname', rfl⟩ := renamable.destination
  exact rename_of_privileged h rfl hparent hname hparent' hname' hsome renamable.outward
    (.inl renamable.free)

/-- Nothing is left where the object was. -/
theorem vanished (h : t.WellFormed) (proper : ∀ name ∈ path, name.Proper)
    (moved : Moved old new t u) : resolve u path = fail .noent := by
  have hpath : path ≠ [] := by
    rintro rfl
    obtain ⟨⟨parent, name, hparent, -, -⟩, -⟩ := renamable.entry proper
    cases hparent
  exact locate_vanished h proper hpath renamable.source
    (fun _ => moved.kept h renamable.free) (moved.gone old List.prefix_rfl)

/-- The other path leads to the object then, unless its way passes through what has been moved. -/
theorem arrived (h : t.WellFormed) (proper : ∀ name ∈ path, name.Proper)
    (proper' : ∀ name ∈ path', name.Proper) (moved : Moved old new t u)
    (aside : ∀ place, Passes t path' place → ¬old <+: place) : resolve u path' = .ok new := by
  obtain ⟨-, hsome⟩ := renamable.entry proper
  obtain ⟨parent, name, hparent, hname, hnew⟩ := renamable.destination
  obtain ⟨front, rfl, hcheck, hwalk, hsearch⟩ := locateParent_eq_ok hparent
  have hkept : ∀ place, Visits t .superuser true linkLimit [] front place →
      (t.get? place).isSome → Kept t u place := by
    intro place hvisits
    exact moved.kept h renamable.free (aside place ⟨front, name, rfl, hcheck, hvisits⟩)
  have hparent' : (t.get? parent).isSome := (isDirectory_of_search hsearch).isSome
  have hsearch' : search u .superuser parent = .ok () :=
    (hkept parent (visits_end h hwalk) hparent').search_eq.trans hsearch
  -- The parent is found as before, so that the path names the same entry in the new tree.
  have hentry : Entry u .superuser (front ++ [name]) new := by
    refine ⟨parent, name, ?_, hname, hnew⟩
    rw [locateParent_concat, hcheck, walk_kept h hkept hwalk]
    simp only [bind, Except.bind]
    rw [hsearch']
    rfl
  have harrived : u.get? new = t.get? old := by
    have hthere := moved.there []
    rwa [List.append_nil, List.append_nil] at hthere
  obtain ⟨node, hnode⟩ := Option.isSome_iff_exists.mp hsome
  rw [resolve, locate_of_entry proper' hentry, harrived, hnode]

end Renamable

/-- What is renamed to where nothing was could be. -/
theorem exists_renamable (proper : ∀ name ∈ path, name.Proper)
    (proper' : ∀ name ∈ path', name.Proper) (h : rename t .superuser path path' = .ok u)
    (missing : ∀ place, resolve t path' ≠ .ok place) :
    ∃ old new, Renamable t path path' old new := by
  obtain ⟨old, new, hold, hnew, hsome, hmoved⟩ := rename_eq_ok h
  have hsource : resolve t path = .ok old := by
    obtain ⟨node, hnode⟩ := Option.isSome_iff_exists.mp hsome
    rw [resolve, locate_of_entry proper hold, hnode]
  have hfree : t.get? new = none := by
    cases hnode : t.get? new with
    | none => rfl
    | some node =>
      refine absurd ?_ (missing new)
      rw [resolve, locate_of_entry proper' hnew, hnode]
  -- An object that is renamed to itself is there, so that the new name was not free.
  rcases hmoved with rfl | ⟨houtward, -⟩
  · exact absurd hfree (Option.isSome_iff_ne_none.mp hsome)
  · exact ⟨old, new, hsource, hnew, hfree, houtward⟩

end FileSystem

namespace Export

open MetaFs.Tree

variable {e : Export} {t u : Tree} {src dst : String} {below below' : List Name}
  {path path' old new : TreePath} {result : Except Error Body × Tree}

/-- The refusal of a name that something has already. -/
def existing (dst : String) : Error := ⟨.exist, s!"rename destination {dst} already exists", none⟩

theorem run_rename_eq (hbelow : Spells src below) (hbelow' : Spells dst below') (t : Tree) :
    (e.namesystem (.rename src dst false)).run t =
      match FileSystem.status t e.caller (e.root ++ below') with
      | .ok _ => (.error (existing dst), t)
      | .error fault =>
        if fault = .errno .noent then
          replied (.reply .rename) (FileSystem.settled t
            (FileSystem.rename t e.caller (e.root ++ below) (e.root ++ below')))
        else (.error fault.systemError, t) := by
  have hlookup := run_lookup hbelow' (e := e) t
  refine (Over.run_bind_of_ok (run_path hbelow t)).trans ?_
  refine (Over.run_bind_of_ok (run_path hbelow' t)).trans ?_
  cases hstatus : FileSystem.status t e.caller (e.root ++ below') with
  | ok node =>
    rw [hstatus] at hlookup
    exact (Over.run_bind_of_ok hlookup).trans rfl
  | error fault =>
    rw [hstatus, found] at hlookup
    dsimp only
    split_ifs at hlookup with hnoent
    · rw [if_pos hnoent]
      exact (Over.run_bind_of_ok hlookup).trans (run_change_settled t)
    · rw [if_neg hnoent]
      exact Over.run_bind_of_error hlookup

theorem run_path_of_error {error : Error} (herror : ExportPath.names src = .error error)
    (t : Tree) : (e.path src).run.run t = (.error error, t) := by
  have hnames := run_names src t
  rw [herror] at hnames
  exact Over.run_bind_of_error hnames

/-- What a request to rename without overwriting does that is not denied. -/
structure Renames (e : Export) (t : Tree) (dst : String) (path path' : TreePath)
    (result : Except Error Body × Tree) : Prop where
  taken : ∀ place, FileSystem.resolve t path' = .ok place → result = (.error (existing dst), t)
  root : path' = e.root → FileSystem.check path' = .ok () → result = (.error (existing dst), t)
  moves : ∀ old new, FileSystem.Renamable t path path' old new →
    result.1 = .ok (.reply .rename) ∧
    FileSystem.resolve t path' = FileSystem.fail .noent ∧
    FileSystem.resolve result.2 path = FileSystem.fail .noent ∧
    FileSystem.Moved old new t result.2 ∧
    ((∀ place, FileSystem.Passes t path' place → ¬old <+: place) →
      FileSystem.resolve result.2 path' = .ok new)
  fails : (¬∃ old new, FileSystem.Renamable t path path' old new) →
    ∃ error, result = (.error error, t)

section Rename

variable (h : t.WellFormed) (proper : ∀ name ∈ path, name.Proper)
  (proper' : ∀ name ∈ path', name.Proper)

namespace Renames

include proper' in
theorem of_taken {place : TreePath} (hres : FileSystem.resolve t path' = .ok place) :
    e.Renames t dst path path' (.error (existing dst), t) where
  taken := fun _ _ => rfl
  root := fun _ _ => rfl
  moves := by
    intro old new renamable
    rw [renamable.missing proper'] at hres
    cases hres
  fails := fun _ => ⟨_, rfl⟩

include h in
theorem of_failed (directory : t.IsDirectory e.root) {fault : Fault} {error : Error}
    (hres : FileSystem.resolve t path' = .error fault)
    (unable : ¬∃ old new, FileSystem.Renamable t path path' old new) :
    e.Renames t dst path path' (.error error, t) where
  taken := by
    intro place hplace
    rw [hplace] at hres
    cases hres
  root := by
    rintro rfl fits
    rw [FileSystem.resolve_of_isDirectory h directory fits] at hres
    cases hres
  moves := fun old new renamable => absurd ⟨old, new, renamable⟩ unable
  fails := fun _ => ⟨_, rfl⟩

include h proper proper' in
theorem of_renamable (directory : t.IsDirectory e.root)
    (renamable : FileSystem.Renamable t path path' old new) :
    e.Renames t dst path path' (.ok (.reply .rename), (Edit.move old new).apply t) where
  taken := by
    intro place hplace
    rw [renamable.missing proper'] at hplace
    cases hplace
  root := by
    rintro rfl fits
    have hmissing := renamable.missing proper'
    rw [FileSystem.resolve_of_isDirectory h directory fits] at hmissing
    cases hmissing
  moves := by
    intro other other' renamable'
    have hmove : (Edit.move old new).apply t = (Edit.move other other').apply t := by
      have hsame := renamable.rename_eq h proper
      rw [renamable'.rename_eq h proper] at hsame
      exact (Except.ok.inj hsame).symm
    have hmoved : FileSystem.Moved other other' t ((Edit.move old new).apply t) := by
      rw [hmove]
      obtain ⟨hentry, hsome⟩ := renamable'.entry proper
      exact FileSystem.moved_apply_move h hsome renamable'.free renamable'.outward hentry.ne_nil
    exact ⟨rfl, renamable.missing proper', renamable'.vanished h proper hmoved, hmoved,
      renamable'.arrived h proper proper' hmoved⟩
  fails := fun unable => absurd ⟨old, new, renamable⟩ unable

end Renames

end Rename

/-- A request to rename moves what there is room for, or it is denied. -/
theorem renames_or_denied (h : t.WellFormed) (directory : t.IsDirectory e.root)
    (hbelow : Spells src below) (hbelow' : Spells dst below') :
    e.Renames t dst (e.root ++ below) (e.root ++ below')
        ((e.namesystem (.rename src dst false)).run t) ∨
      ∃ errno, FileSystem.RenameBarred t e.caller (e.root ++ below) (e.root ++ below') errno ∧
        (e.namesystem (.rename src dst false)).run t =
          (.error (Fault.errno errno).systemError, t) := by
  have hproper := proper_append h directory hbelow
  have hproper' := proper_append h directory hbelow'
  have hgranted : FileSystem.Granted
      (FileSystem.RenameBarred t e.caller (e.root ++ below) (e.root ++ below'))
      (FileSystem.locate t e.caller false (e.root ++ below'))
      (FileSystem.resolve t (e.root ++ below')) :=
    FileSystem.locate_granted h (fun _ hpasses => .pass (.inr hpasses)) hproper'
  rw [run_rename_eq hbelow hbelow']
  rcases hgranted with hsame | ⟨errno, hbarred, hdenied⟩
  · cases hres : FileSystem.resolve t (e.root ++ below') with
    | ok place =>
      have hsome : (t.get? place).isSome := by
        by_cases hpath : e.root ++ below' = []
        · rw [hpath, FileSystem.resolve, FileSystem.locate, FileSystem.walk_nil] at hres
          obtain rfl := Except.ok.inj hres
          exact (isDirectory_of_above h directory List.nil_prefix).isSome
        · exact (FileSystem.entry_of_locate hproper' hpath hres).2
      obtain ⟨node, hnode⟩ := Option.isSome_iff_exists.mp hsome
      rw [status_of_locate_ok (hsame.trans hres) hnode]
      exact .inl (.of_taken hproper' hres)
    | error fault =>
      rw [status_of_locate (hsame.trans hres)]
      dsimp only
      by_cases hnoent : fault = .errno .noent
      · rw [if_pos hnoent]
        have hrename : FileSystem.Granted
            (FileSystem.RenameBarred t e.caller (e.root ++ below) (e.root ++ below'))
            (FileSystem.rename t e.caller (e.root ++ below) (e.root ++ below'))
            (FileSystem.rename t .superuser (e.root ++ below) (e.root ++ below')) := by
          refine FileSystem.rename_granted h (fun _ => .pass) (fun _ _ => .change)
            (fun _ _ => .move) (fun _ => id) fun new hnew hsome => ?_
          -- Nothing is replaced, as the other path leads to nothing.
          obtain ⟨node, hnode⟩ := Option.isSome_iff_exists.mp hsome
          rw [FileSystem.resolve, FileSystem.locate_of_entry hproper' hnew, hnode] at hres
          cases hres
        rcases hrename with hsame' | ⟨errno, hbarred, hdenied⟩
        · rw [hsame']
          cases houtcome : FileSystem.rename t .superuser (e.root ++ below) (e.root ++ below') with
          -- A privileged caller succeeds only where there was something to move and room for it.
          | ok u =>
            obtain ⟨old, new, renamable⟩ :=
              FileSystem.exists_renamable hproper hproper' houtcome fun place hplace => by
                rw [hplace] at hres
                cases hres
            rw [renamable.rename_eq h hproper] at houtcome
            obtain rfl := Except.ok.inj houtcome
            exact .inl (.of_renamable h hproper hproper' directory renamable)
          | error fault' =>
            refine .inl (.of_failed h directory hres ?_)
            rintro ⟨old, new, renamable⟩
            rw [renamable.rename_eq h hproper] at houtcome
            cases houtcome
        · rw [hdenied]
          exact .inr ⟨errno, hbarred, rfl⟩
      · rw [if_neg hnoent]
        refine .inl (.of_failed h directory hres ?_)
        rintro ⟨old, new, renamable⟩
        rw [renamable.missing hproper'] at hres
        exact hnoent (Except.error.inj hres).symm
  · rw [status_of_locate hdenied]
    dsimp only
    rw [if_neg hbarred.ne_noent]
    exact .inr ⟨errno, hbarred, rfl⟩

/-- A request to rename without overwriting moves an object to where nothing is, with all that is in
it, or it leaves the tree as it is. -/
theorem renames_or_leaves (h : t.WellFormed) (directory : t.IsDirectory e.root) (src dst : String) :
    let result := (e.namesystem (.rename src dst false)).run t
    (∀ error, ExportPath.names src = .error error → result = (.error error, t)) ∧
    ∀ path, e.Places src path →
      (∀ error, ExportPath.names dst = .error error → result = (.error error, t)) ∧
      ∀ path', e.Places dst path' →
        (e.Renames t dst path path' result ∨
          ∃ errno, FileSystem.RenameBarred t e.caller path path' errno ∧
            result = (.error (Fault.errno errno).systemError, t)) ∧
        (e.caller.privileged = true → e.Renames t dst path path' result) := by
  intro result
  refine ⟨fun error herror => ?_, fun path hplaces => ⟨fun error herror => ?_,
    fun path' hplaces' => ?_⟩⟩
  · exact Over.run_bind_of_error (run_path_of_error herror t)
  · obtain ⟨below, hbelow, rfl⟩ := hplaces
    refine (Over.run_bind_of_ok (run_path hbelow t)).trans ?_
    exact Over.run_bind_of_error (run_path_of_error herror t)
  · obtain ⟨below, hbelow, rfl⟩ := hplaces
    obtain ⟨below', hbelow', rfl⟩ := hplaces'
    have hdone := renames_or_denied h directory hbelow hbelow'
    refine ⟨hdone, fun privileged => hdone.resolve_right ?_⟩
    rintro ⟨errno, hbarred, -⟩
    exact FileSystem.not_barred_of_privileged privileged hbarred

/-- An exported directory `e` with a directory `d` in it, in which there is a link `l` to `e`. -/
def nested : Tree where
  entries :=
    [([], { kind := .directory, mode := 0o755 }),
      ([[101]], { kind := .directory, mode := 0o755 }),
      ([[101], [100]], { kind := .directory, mode := 0o755 }),
      ([[101], [100], [108]], { kind := .symlink [46, 46], mode := 0o777 })]

theorem renames_or_leaves_nested :
    nested.WellFormed ∧ nested.IsDirectory exported.root ∧
    ∃ u, (exported.namesystem (.rename "/d" "//m/." false)).run nested =
        (.ok (.reply .rename), u) ∧
      u.get? [[101], [109], [108]] = nested.get? [[101], [100], [108]] ∧
      FileSystem.resolve u [[101], [100]] = FileSystem.fail .noent ∧
      FileSystem.resolve u [[101], [109]] = .ok [[101], [109]] := by
  have hwellFormed : nested.WellFormed := by decide
  have hdirectory : nested.IsDirectory exported.root := by decide
  have hplaces : exported.Places "/d" [[101], [100]] := ⟨[[100]], ⟨["d"], by cbv, by cbv⟩, rfl⟩
  have hplaces' : exported.Places "//m/." [[101], [109]] :=
    ⟨[[109]], ⟨["m"], by cbv, by cbv⟩, rfl⟩
  have renamable : FileSystem.Renamable nested [[101], [100]] [[101], [109]] [[101], [100]]
      [[101], [109]] :=
    ⟨by cbv, ⟨[[101]], [109], by cbv, by cbv, rfl⟩, by decide, by decide⟩
  obtain ⟨-, htold⟩ := renames_or_leaves hwellFormed hdirectory "/d" "//m/."
  obtain ⟨-, hrenames⟩ := (htold _ hplaces).2 _ hplaces'
  obtain ⟨hanswer, -, hgone, hmoved, harrived⟩ := (hrenames rfl).moves _ _ renamable
  refine ⟨hwellFormed, hdirectory, _, Prod.ext hanswer rfl, hmoved.there [[108]], hgone, ?_⟩
  apply harrived
  intro place hpasses hbegins
  have habove := FileSystem.passes_of_isDirectory hwellFormed hdirectory hpasses
  exact absurd (hbegins.trans habove) (by decide)

/-- A directory is moved to a path of names inside of it, which a link leads out of, and that path
leads nowhere then. What is in a directory that may not be searched is not told to be there. -/
theorem renames_inside :
    (nested.WellFormed ∧ nested.IsDirectory exported.root ∧
      ((exported.namesystem (.rename "/d" "/d/l/x" false)).run nested).1 = .ok (.reply .rename) ∧
      FileSystem.resolve ((exported.namesystem (.rename "/d" "/d/l/x" false)).run nested).2
        [[101], [100], [108], [120]] = FileSystem.fail .noent) ∧
    Session.sealed.WellFormed ∧ Session.sealed.IsDirectory Session.guarded.root ∧
      (Session.sealed.get? [[101], [100], [102]]).isSome ∧
      ((Session.guarded.namesystem (.rename "/a" "/d/f" false)).run Session.sealed).1 =
        .error (Fault.errno .acces).systemError := by
  refine ⟨⟨by decide, by decide, ?_, ?_⟩, by decide, by decide, by decide, ?_⟩
  · cbv
  · cbv
  · cbv

end Export

end MetaFs
