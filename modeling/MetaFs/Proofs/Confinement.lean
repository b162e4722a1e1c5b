import Mathlib
import MetaFs.Proofs.ExportRoot
/-! What requests to an export can reach. As long as no path leads out of the exported directory,
the requests change nothing outside of it, and no reply tells what is there. Where a path leads out,
some request does. -/

namespace MetaFs

namespace Tree

open FileSystem

variable {t u : Tree} {who : Caller} {base place path : TreePath} {edit : Edit} {edits : List Edit}

theorem OnLine.dropLast (h : OnLine base place) : OnLine base place.dropLast := by
  rcases h with hbase | hplace
  · by_cases heq : place = base
    · exact .inr (heq ▸ List.dropLast_prefix place)
    · exact .inl (Below.isPrefix_dropLast ⟨hbase, heq⟩)
  · exact .inr ((List.dropLast_prefix place).trans hplace)

theorem OnLine.nil : OnLine base [] := .inr List.nil_prefix

/-- A place that is not on the line to a directory, and neither is what is below it. -/
theorem not_onLine_of_isPrefix (hout : ¬OnLine base path) (hbegins : path <+: place) :
    ¬OnLine base place := by
  rintro (hbase | hplace)
  · rcases List.prefix_or_prefix_of_prefix hbase hbegins with hpath | hpath
    · exact hout (.inl hpath)
    · exact hout (.inr hpath)
  · exact hout (.inr (hbegins.trans hplace))

/-- Two trees that are the same on the line to a directory and inside of it. -/
theorem Twins.of_onLine (h : t.WellFormed) (reaches : t.Reaches who base) (h' : u.WellFormed)
    (clock : u.clock = t.clock)
    (same : ∀ place, OnLine base place → u.get? place = t.get? place) : Twins who base t u := by
  refine ⟨h, h', reaches, ⟨reaches.directory.congr (same base (.inl List.prefix_rfl)), ?_⟩, clock,
    fun place hplace => same place (.inl hplace)⟩
  intro place hplace hne
  rw [search_congr (same place (.inr hplace))]
  exact reaches.searched place hplace hne

/-- Takes all away that is at a place or below it. -/
def prune (t : Tree) (path : TreePath) : Tree :=
  { t with entries := t.entries.filter fun entry => !path.isPrefixOf entry.1 }

theorem get?_prune : (t.prune path).get? place = if path <+: place then none else t.get? place := by
  rw [get?, prune, lookup_filter (!path.isPrefixOf ·), get?]
  by_cases h : path <+: place
  · rw [if_pos h, List.isPrefixOf_iff_prefix.mpr h]
    rfl
  · rw [if_neg h, Bool.eq_false_iff.mpr (mt List.isPrefixOf_iff_prefix.mp h)]
    rfl

theorem WellFormed.prune (h : t.WellFormed) (path : TreePath) : (t.prune path).WellFormed := by
  have hsome {place : TreePath} (hplace : ((t.prune path).get? place).isSome) :
      ¬path <+: place ∧ (t.get? place).isSome := by
    rw [get?_prune] at hplace
    split_ifs at hplace with hbegins
    · cases hplace
    · exact ⟨hbegins, hplace⟩
  refine ⟨h.distinct.sublist (List.filter_sublist.map _), ?_, ?_⟩
  · intro place hplace
    exact h.plain place (hsome hplace).2
  · intro place name hplace
    obtain ⟨hout, hthere⟩ := hsome hplace
    apply (h.housed place name hthere).congr
    rw [get?_prune, if_neg]
    intro hbegins
    exact hout (hbegins.trans (List.prefix_append place [name]))

/-- The same tree with nothing, or with a file, at a place that is not on the line to a directory.
-/
theorem Twins.prune (h : t.WellFormed) (reaches : t.Reaches who base) (hout : ¬OnLine base path) :
    Twins who base t (t.prune path) := by
  refine .of_onLine h reaches (h.prune path) rfl ?_
  intro place hplace
  rw [get?_prune, if_neg]
  intro hbegins
  exact not_onLine_of_isPrefix hout hbegins hplace

/-- What is in a directory after an edit there was in it before, or it is a directory. -/
theorem Edit.Fits.inward (fits : edit.Fits t) (h : t.WellFormed) (within : edit.Within base)
    (inward : Inward t base) : Inward (edit.apply t) base := by
  intro place node target hplace hnode hkind
  obtain ⟨time, hnode⟩ := (kept_apply edit t place).symm.exists_dated hnode
  replace hkind : (node.dated time).kind = .symlink target := hkind
  cases fits with
  | add plain housed free empty =>
    rw [change, get?_put] at hnode
    split_ifs at hnode
    · rw [← Option.some.inj hnode, empty] at hkind
      cases hkind
    · exact inward place _ target hplace hnode hkind
  | set there kind =>
    rw [change, get?_put] at hnode
    split_ifs at hnode with heq
    · rw [← Option.some.inj hnode, kind] at hkind
      exact inward place _ target hplace (heq ▸ there) hkind
    · exact inward place _ target hplace hnode hkind
  | remove =>
    rw [change, get?_erase] at hnode
    split_ifs at hnode
    exact inward place _ target hplace hnode hkind
  | move there plain housed leaf outward =>
    rw [get?_change_move h leaf outward] at hnode
    split_ifs at hnode
    · exact inward _ _ target (within.1.1.trans (List.prefix_append _ _)) hnode hkind
    · exact inward place _ target hplace hnode hkind

theorem Edit.AllFit.inward (h : Edit.AllFit t edits) (ht : t.WellFormed)
    (within : ∀ edit ∈ edits, edit.Within base) (inward : Inward t base) :
    Inward (Edit.applyAll edits t) base := by
  induction h with
  | nil => exact inward
  | @cons t edit edits fits _ ih =>
    exact ih (fits.wellFormed ht) (fun e he => within e (List.mem_cons_of_mem edit he))
      (fits.inward ht (within edit List.mem_cons_self) inward)

end Tree

namespace FileSystem

open MetaFs.Tree

variable {t u : Tree} {who : Caller} {base here place : TreePath} {names : List Name}
  {followLast : Bool} {links : ℕ} {name : Name} {rest : List Name}

/-- What begins a path that is not too long is not too long. -/
theorem check_of_concat {front : TreePath} {last : Name} (h : check (front ++ [last]) = .ok ()) :
    check front = .ok () := by
  rw [check, List.any_append, List.foldl_append] at h
  split_ifs at h with hzero hlong
  · cases h
  · rw [Bool.or_eq_true, not_or] at hzero
    rw [check, if_neg hzero.1, if_neg]
    intro hle
    apply hlong
    rw [List.foldl_cons, List.foldl_nil]
    omega

theorem turn_of_plain (searched : search t who here = .ok ()) (plain : name.Plain) :
    turn t who followLast links here name rest =
      meet followLast links here (here ++ [name]) rest
        ((t.get? (here ++ [name])).map Node.kind) := by
  rw [turn, searched]
  dsimp only
  rw [if_neg plain.ne_dot, if_neg plain.ne_dots, if_neg (Nat.not_lt.mpr plain.length_le)]

end FileSystem

namespace Export

open MetaFs.Tree

variable {e : Export} {t u : Tree} {src : String} {place : TreePath} {r : Request}
  {requests : List Request}

/-- The reply to a request after others. -/
def reply (e : Export) (t : Tree) (before : List Request) (r : Request) : Except Error Body :=
  ((e.namesystem r).run (e.namesystem.after t before)).1

theorem run_getFileInfo {below : List Name} (hbelow : Spells src below) (t : Tree) :
    (e.namesystem (.getFileInfo src)).run t =
      ((found (FileSystem.status t e.caller (e.root ++ below))).map
        fun node => .reply (.getFileInfo (node.map (e.statusOf []))), t) := by
  have hlookup := run_lookup (e := e) hbelow t
  show (e.getFileInfo src).run.run t = _
  rw [getFileInfo]
  generalize found _ = outcome at hlookup ⊢
  cases outcome with
  | error error => rw [Over.run_bind_of_error hlookup]; rfl
  | ok node => rw [Over.run_bind_of_ok hlookup]; rfl

theorem run_setPermission {below : List Name} {permission : UInt32} (hbelow : Spells src below)
    (t : Tree) : (e.namesystem (.setPermission src permission)).run t =
      match FileSystem.setMode t e.caller (e.root ++ below) permission.toNat with
      | .ok t' => (.ok (.reply .setPermission), t')
      | .error fault => (.error fault.systemError, t) := by
  have hchange := run_change Fault.systemError
    (FileSystem.setMode · e.caller (e.root ++ below) permission.toNat) t
  refine (Over.run_bind_of_ok (run_path hbelow t)).trans ?_
  cases hmode : FileSystem.setMode t e.caller (e.root ++ below) permission.toNat with
  | error fault =>
    rw [hmode] at hchange
    exact Over.run_bind_of_error hchange
  | ok t' =>
    rw [hmode] at hchange
    exact (Over.run_bind_of_ok hchange).trans rfl

/-- An exported directory `e` with a directory `d` in it and a link `u` to that. -/
def inner : Tree where
  entries :=
    [([], { kind := .directory, mode := 0o755 }),
      ([[101]], { kind := .directory, mode := 0o755 }),
      ([[101], [100]], { kind := .directory, mode := 0o755 }),
      ([[101], [117]], { kind := .symlink [100], mode := 0o777 })]

end Export

end MetaFs
