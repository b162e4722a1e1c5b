import Mathlib
import MetaFs.Proofs.Existence
import MetaFs.Proofs.Permissions
/-! What a request to delete takes away: the object that its path leads to, with all that is in it,
and nothing else. -/

namespace MetaFs

namespace FileSystem

open MetaFs.Tree

variable {t u : Tree} {who : Caller} {here place path parent : TreePath} {name : Name}
  {rest names : List Name} {followLast : Bool} {links : ℕ} {node : Node}

/-! The same walk after a change of the tree. -/

/-- A name that stands for an entry leads on only if there is one. -/
theorem isSome_of_turn_on {links' : ℕ} {here' : TreePath} {names' : List Name}
    (h : turn t who followLast links here name rest = .on links' here' names')
    (ne_dot : name ≠ [46]) (ne_dots : name ≠ [46, 46]) : (t.get? (here ++ [name])).isSome := by
  obtain ⟨-, hgoes⟩ := goes_of_turn h
  cases hgoes with
  | stay dot => exact absurd dot ne_dot
  | up dots => exact absurd dots ne_dots
  | down directory => exact directory.isSome
  | follow there => exact Option.isSome_iff_exists.mpr ⟨_, there⟩

/-- A walk that leads anywhere finds each entry on its way. -/
theorem leads_of_walk (h : walk t who followLast links here (name :: rest) = .ok place) :
    search t who here = .ok () ∧
      (name ≠ [46] → name ≠ [46, 46] → (t.get? (here ++ [name])).isSome) := by
  rw [walk_cons] at h
  cases hturn : turn t who followLast links here name rest with
  | done result =>
    rw [hturn] at h
    dsimp only at h
    rw [h] at hturn
    obtain ⟨-, hsearch, hthere⟩ := turn_eq_done_ok hturn
    exact ⟨hsearch, fun _ _ => hthere⟩
  | on links' here' names' => exact ⟨(goes_of_turn hturn).1, isSome_of_turn_on hturn⟩

/-- A turn is the same where the entry that it looks at is of the same kind. -/
theorem turn_of_kept (hsearch : search u who here = search t who here)
    (kept : name ≠ [46] → name ≠ [46, 46] → Kept t u (here ++ [name])) :
    turn u who followLast links here name rest = turn t who followLast links here name rest := by
  rw [turn, turn, hsearch]
  by_cases hdot : name = [46]
  · rw [if_pos hdot, if_pos hdot]
  by_cases hdots : name = [46, 46]
  · rw [if_pos hdots, if_pos hdots]
  rw [(kept hdot hdots).kind_eq]

/-- What begins with a name that is not the last one of a place does not reach into it. -/
theorem not_isPrefix_of_goes {links' : ℕ} {here' : TreePath} {names' : List Name}
    (hplace : place ≠ []) (hout : ¬place <+: here) (hthere : here ++ [name] ≠ place)
    (hgoes : Goes t links here name rest links' here' names') : ¬place <+: here' := by
  cases hgoes with
  | stay => exact hout
  | up => exact fun hbegins => hout (hbegins.trans (List.dropLast_prefix here))
  | down =>
    intro hbegins
    rcases List.prefix_concat_iff.mp hbegins with heq | hbegins
    · exact hthere heq.symm
    · exact hout hbegins
  | follow =>
    rw [origin]
    split_ifs
    · exact fun hbegins => hplace (List.prefix_nil.mp hbegins)
    · exact hout

/-- Where what is at a place is gone and all else is kept, a walk that has led to the place finds
nothing. -/
theorem walk_vanished (h : t.WellFormed) (hplace : place ≠ []) (hsome : (t.get? place).isSome)
    (kept : ∀ path, ¬place <+: path → (t.get? path).isSome → Kept t u path)
    (gone : u.get? place = none) :
    ¬place <+: here → walk t who followLast links here names = .ok place →
      walk u who followLast links here names = fail .noent := by
  induction links, here, names using walk_induction t who followLast with
  | nil links here =>
    intro hout hwalk
    rw [walk_nil] at hwalk
    cases hwalk
    exact absurd List.prefix_rfl hout
  | cons links here name rest ih =>
    intro hout hwalk
    obtain ⟨hsearch, hentry⟩ := leads_of_walk hwalk
    have hsearch' : search u who here = search t who here :=
      (kept here hout (isDirectory_of_search hsearch).isSome).search_eq
    by_cases hthere : here ++ [name] = place
    -- The place is met, whether the walk through the first tree ends with it or not.
    · have hplain := h.plain place hsome name
        (hthere ▸ List.mem_append_right here (List.mem_singleton.mpr rfl))
      rw [walk_cons, turn_of_plain (hsearch'.trans hsearch) hplain, hthere, gone]
      rfl
    · have hturn : turn u who followLast links here name rest =
          turn t who followLast links here name rest := by
        refine turn_of_kept hsearch' fun hdot hdots => kept _ ?_ (hentry hdot hdots)
        intro hbegins
        rcases List.prefix_concat_iff.mp hbegins with heq | hbegins
        · exact hthere heq.symm
        · exact hout hbegins
      rw [walk_cons] at hwalk ⊢
      rw [hturn]
      cases hnext : turn t who followLast links here name rest with
      | done result =>
        rw [hnext] at hwalk
        dsimp only at hwalk
        rw [hwalk] at hnext
        exact absurd (turn_eq_done_ok hnext).1.symm hthere
      | on links' here' names' =>
        rw [hnext] at hwalk
        have hout' := not_isPrefix_of_goes hplace hout hthere (goes_of_turn hnext).2
        exact ih links' here' names' hnext hout' hwalk

theorem enter_eq_ok (h : enter t who parent name = .ok place) : search t who parent = .ok () ∧
    checkName name = .ok () ∧ place = parent ++ [name] ∧ (t.get? place).isSome := by
  have hplace := eq_of_enter h
  rw [enter] at h
  obtain ⟨_, hsearch, h⟩ := eq_ok_of_bind h
  obtain ⟨_, hname, h⟩ := eq_ok_of_bind h
  refine ⟨hsearch, hname, hplace, ?_⟩
  rw [hplace]
  cases hnode : t.get? (parent ++ [name]) with
  | none =>
    rw [hnode] at h
    cases h
  | some node => rfl

/-- What a path leads to is the entry that it names. -/
theorem entry_of_locate (proper : ∀ name ∈ path, name.Proper) (hpath : path ≠ [])
    (h : locate t who false path = .ok place) :
    Entry t who path place ∧ (t.get? place).isSome := by
  cases path using List.reverseRecOn with
  | nil => exact absurd rfl hpath
  | append_singleton front last =>
    have hlast := proper last (List.mem_append_right front (List.mem_singleton.mpr rfl))
    obtain ⟨hcheck, hwalk⟩ := locate_eq_ok h
    rw [walk_concat hlast.ne_dot hlast.ne_dots] at hwalk
    obtain ⟨parent, hparent, henter⟩ := eq_ok_of_bind hwalk
    obtain ⟨hsearch, hname, hplace, hsome⟩ := enter_eq_ok henter
    refine ⟨⟨parent, last, ?_, hname, hplace⟩, hsome⟩
    rw [locateParent_concat, hcheck, hparent]
    simp only [bind, Except.bind]
    rw [hsearch]
    rfl

theorem locate_vanished (h : t.WellFormed) (proper : ∀ name ∈ path, name.Proper) (hpath : path ≠ [])
    (hlocate : locate t who false path = .ok place)
    (kept : ∀ path, ¬place <+: path → (t.get? path).isSome → Kept t u path)
    (gone : u.get? place = none) : locate u who false path = fail .noent := by
  obtain ⟨⟨parent, name, -, -, hplace⟩, hsome⟩ := entry_of_locate proper hpath hlocate
  obtain ⟨hcheck, hwalk⟩ := locate_eq_ok hlocate
  have hne : place ≠ [] := hplace ▸ List.append_ne_nil_of_right_ne_nil parent (by simp)
  rw [locate_of_check hcheck]
  exact walk_vanished h hne hsome kept gone (fun hbegins => hne (List.prefix_nil.mp hbegins)) hwalk

/-! Taking an entry away. -/

/-- Whether a call has changed the tree, and how. -/
def settled (t : Tree) : Except Fault Tree → Except Fault Unit × Tree
  | .ok u => (.ok (), u)
  | .error fault => (.error fault, t)

/-- The same tree without what is at a place and below it. The directory that the place is in may
have another time of its last change. -/
structure CutOut (place : TreePath) (t u : Tree) : Prop where
  gone : ∀ path, place <+: path → u.get? path = none
  parent : Kept t u place.dropLast
  elsewhere : ∀ path, ¬place <+: path → path ≠ place.dropLast → u.get? path = t.get? path

theorem CutOut.kept (cut : CutOut place t u) (hout : ¬place <+: path) : Kept t u path := by
  by_cases hparent : path = place.dropLast
  · rw [hparent]
    exact cut.parent
  · exact .of_eq (cut.elsewhere path hout hparent)

theorem not_isPrefix_dropLast (hplace : place ≠ []) : ¬place <+: place.dropLast := by
  intro hbegins
  have hle := hbegins.length_le
  have hpos := List.length_pos_iff.mpr hplace
  rw [List.length_dropLast] at hle
  omega

theorem Entry.ne_nil (entry : Entry t who path place) : place ≠ [] := by
  obtain ⟨parent, name, -, -, rfl⟩ := entry
  exact List.append_ne_nil_of_right_ne_nil parent (List.cons_ne_nil name [])

section TakeAway

variable {recursive : Bool}

end TakeAway

end FileSystem

namespace Export

open MetaFs.Tree

variable {e : Export} {t u : Tree} {src : String} {below : List Name} {path place : TreePath}
  {recursive again : Bool} {node : Node}

/-- The answer to a request that makes one change. -/
def replied (body : Body) (made : Except Fault Unit × Tree) : Except Error Body × Tree :=
  ((made.1.map fun _ => body).mapError Fault.systemError, made.2)

theorem run_change_settled {f : Tree → Except Fault Tree} {body : Body} (t : Tree) :
    (do change Fault.systemError f
        return body : Over Tree Body).run.run t = replied body (FileSystem.settled t (f t)) := by
  have hchange := run_change Fault.systemError f t
  cases hf : f t with
  | error fault =>
    rw [hf] at hchange
    exact Over.run_bind_of_error hchange
  | ok u =>
    rw [hf] at hchange
    exact Over.run_bind_of_ok hchange

/-- A request to delete is denied. Only a directory that was to be removed with all that is in it
may have lost a part of that. -/
structure Denies (t : Tree) (errno : Errno) (recursive : Bool) (path : TreePath)
    (result : Except Error Body × Tree) : Prop where
  answer : result.1 = .error (Fault.errno errno).systemError
  whole : recursive = false ∨
    (∀ place, FileSystem.resolve t path = .ok place → ¬t.IsDirectory place) → result.2 = t
  outside : ∀ place, FileSystem.resolve t path = .ok place → ∀ other, ¬place <+: other →
    result.2.get? other = t.get? other

theorem status_of_locate {who : Caller} {fault : Fault}
    (h : FileSystem.locate t who false path = .error fault) :
    FileSystem.status t who path = .error fault := by
  rw [FileSystem.status, h]
  rfl

theorem status_of_locate_ok {who : Caller} (h : FileSystem.locate t who false path = .ok place)
    (hnode : t.get? place = some node) : FileSystem.status t who path = .ok node := by
  rw [FileSystem.status, h]
  simp only [bind, Except.bind]
  rw [hnode]
  rfl

section Delete

variable (h : t.WellFormed) (directory : t.IsDirectory e.root) (hbelow : Spells src below)
  (hne : below ≠ [])
include h directory hbelow hne

end Delete

/-- An exported directory `e` with a sticky directory `p` in it, where everybody may make entries.
There is a file `f` in `p`, and both are another owner's. -/
def posted : Tree where
  entries :=
    [([], { kind := .directory, mode := 0o755 }),
      ([[101]], { kind := .directory, mode := 0o755 }),
      ([[101], [112]], { kind := .directory, mode := 0o1777, uid := 1 }),
      ([[101], [112], [102]], { kind := .file 7, mode := 0o666, uid := 1 })]

example : (Session.guarded.namesystem (.delete "/p/f" false)).run posted =
    (.error (Fault.errno .perm).systemError, posted) := by
  cbv

/-- An exported directory `e` with a directory `p` in it whose entries only a privileged caller may
change. In `p` there is a directory `d` with a file `f`. -/
def held : Tree where
  entries :=
    [([], { kind := .directory, mode := 0o755 }),
      ([[101]], { kind := .directory, mode := 0o755 }),
      ([[101], [112]], { kind := .directory, mode := 0o555 }),
      ([[101], [112], [100]], { kind := .directory, mode := 0o755 }),
      ([[101], [112], [100], [102]], { kind := .file 7, mode := 0o644 })]

end Export

end MetaFs
