import Mathlib
import MetaFs.Proofs.Confinement
/-! Paths without links on them. Such a path leads to the place of its own names if the caller may
search the directories on the way; else, or where nothing is at that place, the failure tells why
not. -/

namespace MetaFs

/-- There are no links in the tree. -/
def Tree.Linkless (t : Tree) : Prop :=
  ∀ place node target, t.get? place = some node → node.kind ≠ .symlink target

theorem Tree.linkless_of_entries {t : Tree}
    (h : ∀ entry ∈ t.entries, ∀ target, entry.2.kind ≠ .symlink target) : t.Linkless :=
  fun _ _ target hnode => h _ (mem_of_get? hnode) target

namespace FileSystem

open MetaFs.Tree

variable {t u : Tree} {who : Caller} {here front path place : TreePath} {name : Name}
  {names : List Name} {followLast : Bool} {links : ℕ} {node : Node}

/-- No link is on the way to a place or at the place. -/
def Straight (t : Tree) (place : TreePath) : Prop :=
  ∀ path node target, path <+: place → t.get? path = some node → node.kind ≠ .symlink target

theorem straight_of_linkless (h : t.Linkless) (place : TreePath) : Straight t place :=
  fun path node target _ hnode => h path node target hnode

/-- The caller may search every directory on the way to a place. -/
def Clear (t : Tree) (who : Caller) (place : TreePath) : Prop :=
  ∀ path, path <+: place → path ≠ place → t.IsDirectory path → search t who path = .ok ()

/-- What the caller of a straight path is led to: the place, a name that is missing in a directory
on the way, or a node on the way that is no directory. -/
inductive LeadsTo (t : Tree) (place : TreePath) : Except Fault TreePath → Prop where
  | there (present : (t.get? place).isSome) : LeadsTo t place (.ok place)
  | missing {front : TreePath} {name : Name} (absent : t.get? place = none)
      (begins : front ++ [name] <+: place) (directory : t.IsDirectory front)
      (gap : t.get? (front ++ [name]) = none) : LeadsTo t place (fail .noent)
  | blocked {front : TreePath} {node : Node} (absent : t.get? place = none)
      (begins : front <+: place) (there : t.get? front = some node)
      (kind : node.kind ≠ .directory) : LeadsTo t place (fail .notdir)

theorem search_of_isDirectory (who : Caller) (directory : t.IsDirectory place) :
    search t who place = .ok () ∨ search t who place = fail .acces := by
  obtain ⟨node, hnode, hkind⟩ := directory
  have hdirectory : node.isDirectory = true := decide_eq_true hkind
  rw [search, hnode]
  dsimp only
  rw [hdirectory]
  cases who.allows node Caller.maySearch
  · exact .inr rfl
  · exact .inl rfl

theorem clear_of_privileged (privileged : who.privileged = true) (place : TreePath) :
    Clear t who place :=
  fun _ _ _ directory => search_of_privileged privileged directory

theorem cons_eq_append (here : TreePath) (name : Name) (names : List Name) :
    here ++ name :: names = here ++ [name] ++ names :=
  (List.append_assoc here [name] names).symm

theorem ne_append_cons (here : TreePath) (name : Name) (names : List Name) :
    here ≠ here ++ name :: names := by
  intro heq
  exact List.cons_ne_nil name names (List.self_eq_append_right.mp heq)

/-- Each name of a straight path is met as a directory, as a file or the like, or not at all. -/
theorem leadsTo_walk (h : t.WellFormed) (directory : t.IsDirectory here)
    (plain : ∀ name ∈ names, name.Plain) (straight : Straight t (here ++ names))
    (clear : Clear t who (here ++ names)) :
    LeadsTo t (here ++ names) (walk t who followLast links here names) := by
  induction names generalizing here with
  | nil =>
    rw [List.append_nil, walk_nil]
    exact .there directory.isSome
  | cons name names ih =>
    rw [List.forall_mem_cons] at plain
    have hsearch :=
      clear here (List.prefix_append here _) (ne_append_cons here name names) directory
    have hbegins : here ++ [name] <+: here ++ name :: names := by
      rw [cons_eq_append here name names]
      exact List.prefix_append _ names
    rw [walk_cons, turn_of_plain hsearch plain.1]
    cases hnode : t.get? (here ++ [name]) with
    | none =>
      apply LeadsTo.missing _ hbegins directory hnode
      by_contra hsome
      have hthere := h.isSome_of_isPrefix (Option.isSome_iff_ne_none.mpr hsome) hbegins
      rw [hnode] at hthere
      cases hthere
    | some node =>
      rw [Option.map_some]
      cases hkind : node.kind with
      | directory =>
        rw [cons_eq_append] at straight clear ⊢
        exact ih ⟨node, hnode, hkind⟩ plain.2 straight clear
      | symlink target => exact absurd hkind (straight _ node target hbegins hnode)
      | file size | special size =>
        have hne : node.kind ≠ .directory := hkind ▸ NodeKind.noConfusion
        by_cases hnames : names = []
        · rw [hnames]
          exact .there (by rw [hnode]; rfl)
        -- Nothing is below what is no directory.
        · have hnone : t.get? (here ++ name :: names) = none := by
            by_contra hsome
            obtain ⟨found, hfound, hdirectory⟩ := h.isDirectory_of_isPrefix
              (Option.isSome_iff_ne_none.mpr hsome) hbegins (by
                rw [cons_eq_append here name names]
                intro heq
                exact hnames (List.self_eq_append_right.mp heq))
            rw [hnode] at hfound
            cases hfound
            exact hne hdirectory
          have hmore : names.isEmpty = false := by simpa using hnames
          rw [meet, hmore, if_neg Bool.false_ne_true]
          exact .blocked hnone hbegins hnode hne

/-- The first directory on the way that may not be searched ends a walk, links or not. -/
theorem walk_of_barred (h : t.WellFormed) (plain : ∀ name ∈ names, name.Plain)
    (hhere : here <+: front) (hfront : front <+: here ++ names) (hne : front ≠ here ++ names)
    (directory : t.IsDirectory front) (barred : search t who front ≠ .ok ()) :
    walk t who followLast links here names = fail .acces := by
  obtain ⟨more, rfl⟩ := hhere
  induction names generalizing here more with
  | nil =>
    rw [List.append_nil] at hfront hne
    have hmore : more = [] := by simpa using hfront.length_le
    rw [hmore, List.append_nil] at hne
    exact absurd rfl hne
  | cons name names ih =>
    rw [List.forall_mem_cons] at plain
    have habove : t.IsDirectory here := by
      by_cases hmore : more = []
      · rwa [hmore, List.append_nil] at directory
      · exact h.isDirectory_of_isPrefix directory.isSome (List.prefix_append here more)
          fun heq => hmore (List.self_eq_append_right.mp heq)
    rcases search_of_isDirectory who habove with hsearch | hsearch
    -- A directory that may be searched is not the one, so that the walk goes on into the next.
    · cases more with
      | nil =>
        rw [List.append_nil] at barred
        exact absurd hsearch barred
      | cons next more =>
        obtain rfl : next = name := by
          rw [List.prefix_append_right_inj] at hfront
          exact (List.cons_prefix_cons.mp hfront).1
        rw [walk_cons, turn_of_isDirectory h (isDirectory_of_append h directory), hsearch]
        rw [cons_eq_append] at hfront hne directory barred
        rw [cons_eq_append here next names] at hfront hne
        exact ih plain.2 more hfront hne directory barred
    · rw [walk_cons, turn, hsearch]
      rfl

theorem exists_barred (h : ¬Clear t who place) : ∃ front, front <+: place ∧ front ≠ place ∧
    t.IsDirectory front ∧ search t who front ≠ .ok () := by
  rw [Clear] at h
  push Not at h
  exact h

/-- A path that calls of the file system do not refuse by itself. -/
structure Accepts (path : TreePath) : Prop where
  fits : check path = .ok ()
  plain : ∀ name ∈ path, name.Plain

section Calls

variable (h : t.WellFormed) (root : t.IsDirectory []) (accepts : Accepts path)
include h root accepts

theorem leadsTo_locate (followLast : Bool) (straight : Straight t path) (clear : Clear t who path) :
    LeadsTo t path (locate t who followLast path) := by
  rw [locate_of_check accepts.fits, ← List.nil_append path]
  exact leadsTo_walk h root accepts.plain straight clear

omit root in
theorem locate_of_not_clear (barred : ¬Clear t who path) :
    locate t who followLast path = fail .acces := by
  obtain ⟨front, hbegins, hne, directory, hsearch⟩ := exists_barred barred
  rw [locate_of_check accepts.fits]
  exact walk_of_barred h accepts.plain List.nil_prefix hbegins hne directory hsearch

/-- A straight path that leads anywhere leads to the place of its names. -/
theorem of_locate_straight (straight : Straight t path)
    (hplace : locate t who followLast path = .ok place) :
    place = path ∧ Clear t who path ∧ (t.get? path).isSome := by
  by_cases clear : Clear t who path
  · have hleads := leadsTo_locate h root accepts followLast straight clear
    rw [hplace] at hleads
    generalize hresult : Except.ok place = result at hleads
    cases hleads with
    | there present =>
      cases hresult
      exact ⟨rfl, clear, present⟩
    | missing | blocked => cases hresult
  · rw [locate_of_not_clear h accepts clear] at hplace
    cases hplace

theorem status_of_clear (straight : Straight t path) (clear : Clear t who path) :
    (∀ node, t.get? path = some node → status t who path = .ok node) ∧
      (t.get? path = none →
        status t who path = fail .noent ∨ status t who path = fail .notdir) := by
  have hleads := leadsTo_locate h root accepts false straight clear
  rw [status]
  generalize locate t who false path = result at hleads
  cases hleads with
  | there present =>
    constructor
    · intro node hnode
      simp only [bind, Except.bind]
      rw [hnode]
      rfl
    · intro hnone
      rw [hnone] at present
      cases present
  | missing absent =>
    refine ⟨fun node hnode => ?_, fun _ => .inl rfl⟩
    rw [absent] at hnode
    cases hnode
  | blocked absent =>
    refine ⟨fun node hnode => ?_, fun _ => .inr rfl⟩
    rw [absent] at hnode
    cases hnode

omit root in
theorem status_of_not_clear (barred : ¬Clear t who path) : status t who path = fail .acces := by
  rw [status, locate_of_not_clear h accepts barred]
  rfl

end Calls

end FileSystem

end MetaFs
