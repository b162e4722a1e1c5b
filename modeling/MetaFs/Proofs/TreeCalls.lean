import Mathlib
import MetaFs.Proofs.Walks
/-! The calls of a file system by what they read and what they write: a call decides on an edit from
the places that its walks look at, and two trees that are the same there are edited alike. -/

namespace MetaFs

namespace Tree

open FileSystem

variable {t u : Tree} {who : Caller} {base place : TreePath} {edit : Edit} {edits more : List Edit}

/-- The caller can walk down to a directory. -/
structure Reaches (t : Tree) (who : Caller) (base : TreePath) : Prop where
  directory : t.IsDirectory base
  searched : ∀ place, place <+: base → place ≠ base → search t who place = .ok ()

/-- Two trees that both have a directory, and in it the same. They are changed at the same moments.
-/
structure Twins (who : Caller) (base : TreePath) (t u : Tree) : Prop where
  left : t.WellFormed
  right : u.WellFormed
  reaches : t.Reaches who base
  reaches' : u.Reaches who base
  clock : u.clock = t.clock
  same : ∀ place, base <+: place → u.get? place = t.get? place

/-- A place inside of a directory, or one on the way to it. -/
def OnLine (base place : TreePath) : Prop :=
  base <+: place ∨ place <+: base

namespace Edit

def applyAll (edits : List Edit) (t : Tree) : Tree :=
  edits.foldl (fun t edit => edit.apply t) t

/-- Each edit fits where the ones before it have left the tree. -/
inductive AllFit : Tree → List Edit → Prop where
  | nil {t : Tree} : AllFit t []
  | cons {t : Tree} {edit : Edit} {edits : List Edit} (fits : edit.Fits t)
      (more : AllFit (edit.apply t) edits) : AllFit t (edit :: edits)

theorem applyAll_append : applyAll (edits ++ more) t = applyAll more (applyAll edits t) :=
  List.foldl_append

theorem AllFit.append (h : AllFit t edits) (h' : AllFit (applyAll edits t) more) :
    AllFit t (edits ++ more) := by
  induction h with
  | nil => exact h'
  | cons fits _ ih => exact .cons fits (ih h')

theorem AllFit.wellFormed (h : AllFit t edits) (ht : t.WellFormed) :
    (applyAll edits t).WellFormed := by
  induction h with
  | nil => exact ht
  | cons fits _ ih => exact ih (fits.wellFormed ht)

theorem AllFit.isDirectory_of_spares (h : AllFit t edits) (ht : t.WellFormed)
    (spares : ∀ edit ∈ edits, edit.Spares base) (directory : t.IsDirectory base) :
    (applyAll edits t).IsDirectory base := by
  induction h with
  | nil => exact directory
  | @cons t edit edits fits _ ih =>
    exact ih (fits.wellFormed ht) (fun e he => spares e (List.mem_cons_of_mem edit he))
      (fits.isDirectory_of_spares ht (spares edit List.mem_cons_self) directory)

end Edit

theorem search_congr (h : u.get? place = t.get? place) :
    search u who place = search t who place := by
  rw [search, search, h]

/-- Whether a directory may be searched does not depend on the time of its last change. -/
theorem Kept.search_eq (h : Kept t u place) : search u who place = search t who place := by
  obtain ⟨time, hu⟩ := h
  rw [search, search, hu]
  cases t.get? place <;> rfl

/-- An edit inside of a directory does not bar the way to it. -/
theorem Reaches.apply (h : t.Reaches who base) (ht : t.WellFormed) (fits : edit.Fits t)
    (within : edit.Within base) : (edit.apply t).Reaches who base := by
  refine ⟨fits.isDirectory_of_spares ht within.spares h.directory, ?_⟩
  intro place hbegins hne
  have hout : ¬base <+: place := by
    intro hbase
    exact hne (hbegins.eq_of_length_le hbase.length_le)
  rw [search_congr (fits.get?_apply_of_within ht within hout)]
  exact h.searched place hbegins hne

namespace Twins

theorem apply (h : Twins who base t u) (fits : edit.Fits t) (within : edit.Within base) :
    edit.Fits u ∧ Twins who base (edit.apply t) (edit.apply u) := by
  have fits' := fits.congr within h.same
  obtain ⟨hclock, hsame⟩ := fits.apply_congr fits' h.left h.right within h.clock h.same
  exact ⟨fits', fits.wellFormed h.left, fits'.wellFormed h.right,
    h.reaches.apply h.left fits within, h.reaches'.apply h.right fits' within, hclock, hsame⟩

theorem applyAll (h : Twins who base t u) (fit : Edit.AllFit t edits)
    (within : ∀ edit ∈ edits, edit.Within base) :
    Edit.AllFit u edits ∧ Twins who base (Edit.applyAll edits t) (Edit.applyAll edits u) := by
  induction fit generalizing u with
  | nil => exact ⟨.nil, h⟩
  | @cons t edit edits fits _ ih =>
    obtain ⟨fits', htwins⟩ := h.apply fits (within edit List.mem_cons_self)
    obtain ⟨hfit, hlast⟩ := ih htwins fun e he => within e (List.mem_cons_of_mem edit he)
    exact ⟨.cons fits' hfit, hlast⟩

end Twins

end Tree

namespace FileSystem

open MetaFs.Tree

variable {t u : Tree} {who : Caller} {base place parent : TreePath} {path front : TreePath}
  {name last : Name} {node : Node} {followLast : Bool}

/-- A place that a call looks at on its way along a path. -/
def Sees (t : Tree) (who : Caller) (followLast : Bool) (path place : TreePath) : Prop :=
  check path = .ok () ∧ Visits t who followLast linkLimit [] path place

theorem locate_eq_ok (h : locate t who followLast path = .ok place) :
    check path = .ok () ∧ walk t who followLast linkLimit [] path = .ok place := by
  rw [locate] at h
  cases hcheck : check path with
  | error fault =>
    rw [hcheck] at h
    cases h
  | ok found =>
    rw [hcheck] at h
    exact ⟨rfl, h⟩

theorem locate_of_check (h : check path = .ok ()) :
    locate t who followLast path = walk t who followLast linkLimit [] path := by
  rw [locate, h]
  rfl

theorem locateParent_concat : locateParent t who (front ++ [last]) = do
    check (front ++ [last])
    let parent ← walk t who true linkLimit [] front
    search t who parent
    return (parent, last) := by
  rw [locateParent, List.getLast?_concat, List.dropLast_concat]

/-- The name is the last one of the path, and the names before it lead to a directory. -/
theorem locateParent_eq_ok (h : locateParent t who path = .ok (parent, name)) :
    ∃ front, path = front ++ [name] ∧ check path = .ok () ∧
      walk t who true linkLimit [] front = .ok parent ∧ search t who parent = .ok () := by
  cases path using List.reverseRecOn with
  | nil => cases h
  | append_singleton front last =>
    rw [locateParent_concat] at h
    cases hcheck : check (front ++ [last]) with
    | error fault =>
      rw [hcheck] at h
      cases h
    | ok _ =>
      rw [hcheck] at h
      cases hwalk : walk t who true linkLimit [] front with
      | error fault =>
        rw [hwalk] at h
        cases h
      | ok found =>
        rw [hwalk] at h
        simp only [bind, Except.bind] at h
        cases hsearch : search t who found with
        | error fault =>
          rw [hsearch] at h
          cases h
        | ok _ =>
          rw [hsearch] at h
          cases h
          exact ⟨front, rfl, rfl, hwalk, hsearch⟩

theorem mem_of_locateParent (h : locateParent t who path = .ok (parent, name)) : name ∈ path := by
  obtain ⟨front, rfl, -⟩ := locateParent_eq_ok h
  exact List.mem_append_right front (List.mem_singleton.mpr rfl)

/-- Whoever comes to the directory of an entry finds the entry. -/
theorem locate_of_locateParent (plain : name.Plain)
    (h : locateParent t who path = .ok (parent, name)) :
    locate t who false path =
      match t.get? (parent ++ [name]) with
      | some _ => .ok (parent ++ [name])
      | none => fail .noent := by
  obtain ⟨front, rfl, hcheck, hwalk, hsearch⟩ := locateParent_eq_ok h
  rw [locate_of_check hcheck, walk_concat plain.ne_dot plain.ne_dots, hwalk]
  show enter t who parent name = _
  rw [enter, hsearch, checkName, if_neg (Nat.not_lt.mpr plain.length_le)]
  cases t.get? (parent ++ [name]) with
  | none => rfl
  | some node => rfl

/-- The place that a path names an entry of, which need not be there. -/
def Entry (t : Tree) (who : Caller) (path place : TreePath) : Prop :=
  ∃ parent name, locateParent t who path = .ok (parent, name) ∧ checkName name = .ok () ∧
    place = parent ++ [name]

theorem checkName_eq_ok (h : checkName name = .ok ()) : name.length ≤ nameLimit := by
  rw [checkName] at h
  split_ifs at h with hlong
  · cases h
  · exact Nat.not_lt.mp hlong

/-- A path leads to the entry that it names if there is one. -/
theorem locate_of_entry (proper : ∀ name ∈ path, name.Proper) (entry : Entry t who path place) :
    locate t who false path =
      match t.get? place with
      | some _ => .ok place
      | none => fail .noent := by
  obtain ⟨parent, name, hparent, hname, rfl⟩ := entry
  exact locate_of_locateParent ⟨proper name (mem_of_locateParent hparent), checkName_eq_ok hname⟩
    hparent

/-- The status of an entry is its node. -/
theorem status_of_entry (proper : ∀ name ∈ path, name.Proper) (entry : Entry t who path place) :
    status t who path =
      match t.get? place with
      | some node => .ok node
      | none => fail .noent := by
  rw [status, locate_of_entry proper entry]
  cases hnode : t.get? place with
  | none => rfl
  | some node =>
    simp only [bind, Except.bind]
    rw [hnode]
    rfl

/-- Two runs of a call on two trees: both fail alike, or both make the same edits. -/
inductive Agree (Q : Edit → Prop) (t u : Tree) : Except Fault Tree → Except Fault Tree → Prop where
  | fails (fault : Fault) : Agree Q t u (.error fault) (.error fault)
  | edits {edits : List Edit} (fit : Edit.AllFit t edits) (all : ∀ edit ∈ edits, Q edit) :
      Agree Q t u (.ok (Edit.applyAll edits t)) (.ok (Edit.applyAll edits u))

namespace Agree

variable {Q : Edit → Prop}

theorem single {edit : Edit} (fits : edit.Fits t) (h : Q edit) :
    Agree Q t u (.ok (edit.apply t)) (.ok (edit.apply u)) := by
  show Agree Q t u (.ok (Edit.applyAll [edit] t)) (.ok (Edit.applyAll [edit] u))
  refine .edits (.cons fits .nil) ?_
  intro other hother
  rwa [List.mem_singleton.mp hother]

theorem bind {α : Type} {x : Except Fault α} {f g : α → Except Fault Tree}
    (h : ∀ a, x = .ok a → Agree Q t u (f a) (g a)) : Agree Q t u (x >>= f) (x >>= g) := by
  cases x with
  | error fault => exact .fails fault
  | ok a => exact h a rfl

/-- A check that is the same on both trees. -/
theorem guard {c : Prop} [Decidable c] {e : Errno} {f g : Except Fault Tree}
    {f' g' : Unit → Except Fault Tree} (h : ¬c → Agree Q t u f g) :
    Agree Q t u (if c then fail e >>= f' else f) (if c then fail e >>= g' else g) := by
  split_ifs with hc
  · exact .fails _
  · exact h hc

end Agree

variable {Q : Edit → Prop}

theorem isDirectory_of_search (h : search t who place = .ok ()) : t.IsDirectory place := by
  rw [search] at h
  cases hnode : t.get? place with
  | none =>
    rw [hnode] at h
    cases h
  | some node =>
    rw [hnode] at h
    dsimp only at h
    split_ifs at h with hdirectory
    · cases h
    · rw [Bool.not_eq_true, Bool.not_eq_false', Node.isDirectory, decide_eq_true_eq] at hdirectory
      exact ⟨node, hnode, hdirectory⟩
    · cases h

theorem search_of_privileged (privileged : who.privileged = true) (h : t.IsDirectory place) :
    search t who place = .ok () := by
  obtain ⟨node, hnode, hkind⟩ := h
  rw [search, hnode]
  dsimp only
  rw [Node.isDirectory, hkind, Caller.allows, privileged]
  rfl

theorem checkChange_of_privileged (privileged : who.privileged = true)
    (h : (t.get? place).isSome) : checkChange t who place = .ok () := by
  obtain ⟨node, hnode⟩ := Option.isSome_iff_exists.mp h
  rw [checkChange, hnode]
  dsimp only
  rw [Caller.allows, privileged]
  rfl

theorem owns_of_privileged (privileged : who.privileged = true) (node : Node) :
    who.owns node = true := by
  rw [Caller.owns, privileged, Bool.true_or]

theorem checkTake_of_privileged (privileged : who.privileged = true)
    (h : (t.get? place.dropLast).isSome) : checkTake t who place = .ok () := by
  rw [checkTake, checkChange_of_privileged privileged h]
  simp only [bind, Except.bind]
  cases t.get? place.dropLast with
  | none => rfl
  | some directory =>
    cases t.get? place with
    | none => rfl
    | some node =>
      dsimp only
      rw [owns_of_privileged privileged, Bool.not_true, Bool.and_false, Bool.false_and]
      rfl

theorem not_isPrefix_of_not_isBelow {path : TreePath} (h : ¬isBelow place path = true)
    (hne : place ≠ path) : ¬place <+: path := by
  intro hbegins
  apply h
  rw [isBelow, List.isPrefixOf_iff_prefix.mpr hbegins, Bool.true_and, bne_iff_ne]
  exact hne

end FileSystem

end MetaFs
