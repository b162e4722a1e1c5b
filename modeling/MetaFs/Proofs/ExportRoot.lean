import Mathlib
import MetaFs.Proofs.ExportRequests
import MetaFs.Proofs.Queries
/-! The exported directory itself under requests. It is moved away or removed only through a path
that leads back to it, or above it, by a link. -/

namespace MetaFs

namespace Tree

variable {t u v : Tree} {who : Caller} {root : TreePath}

/-- A directory is still there after edits, none of which has taken it away, moved it or put
anything else in its place. -/
structure Remains (root : TreePath) (t u : Tree) : Prop where
  directory : u.IsDirectory root
  edited : ∃ edits, Edit.AllFit t edits ∧ u = Edit.applyAll edits t ∧
    ∀ edit ∈ edits, edit.Spares root

namespace Remains

theorem refl (directory : t.IsDirectory root) : Remains root t t :=
  ⟨directory, [], .nil, rfl, by simp⟩

theorem trans (h : Remains root t u) (h' : Remains root u v) : Remains root t v := by
  obtain ⟨-, edits, hfit, rfl, hspares⟩ := h
  obtain ⟨directory, more, hfit', rfl, hspares'⟩ := h'
  refine ⟨directory, edits ++ more, hfit.append hfit', Edit.applyAll_append.symm, ?_⟩
  intro edit hedit
  rcases List.mem_append.mp hedit with hmem | hmem
  · exact hspares edit hmem
  · exact hspares' edit hmem

theorem wellFormed (h : Remains root t u) (ht : t.WellFormed) : u.WellFormed := by
  obtain ⟨-, edits, hfit, rfl, -⟩ := h
  exact hfit.wellFormed ht

end Remains

/-- Nothing is outside of the whole tree. -/
theorem Twins.whole (h : t.WellFormed) (directory : t.IsDirectory root) : Twins who [] t t := by
  have htop : t.IsDirectory [] := by
    by_cases hroot : [] = root
    · rwa [hroot]
    · exact h.isDirectory_of_isPrefix directory.isSome List.nil_prefix hroot
  have hreaches : t.Reaches who [] := by
    refine ⟨htop, ?_⟩
    intro place hbegins hne
    exact absurd (List.prefix_nil.mp hbegins) hne
  exact ⟨h, h, hreaches, hreaches, rfl, fun _ _ => rfl⟩

end Tree

namespace FileSystem

open MetaFs.Tree

variable {t : Tree} {who : Caller} {path path' place place' : TreePath} {parent parent' : TreePath}
  {name name' : Name} {node : Node}

theorem Entry.unique (h : Entry t who path place) (h' : Entry t who path place') :
    place = place' := by
  obtain ⟨parent, name, hparent, -, rfl⟩ := h
  obtain ⟨parent', name', hparent', -, rfl⟩ := h'
  cases hparent.symm.trans hparent'
  rfl

/-- A privileged caller moves an entry to where nothing is, and a directory to wherever it fits. -/
theorem rename_of_privileged (h : t.WellFormed) (privileged : who.privileged = true)
    (source : locateParent t who path = .ok (parent, name)) (hname : checkName name = .ok ())
    (destination : locateParent t who path' = .ok (parent', name'))
    (hname' : checkName name' = .ok ()) (there : (t.get? (parent ++ [name])).isSome)
    (outward : ¬parent ++ [name] <+: parent' ++ [name'])
    (free : t.get? (parent' ++ [name']) = none ∨ t.IsDirectory (parent ++ [name]) ∧
      t.IsDirectory (parent' ++ [name']) ∧ t.IsLeaf (parent' ++ [name'])) :
    rename t who path path' =
      .ok ((Edit.move (parent ++ [name]) (parent' ++ [name'])).apply t) := by
  obtain ⟨-, -, hcheck, -, hsearch⟩ := locateParent_eq_ok source
  obtain ⟨-, -, hcheck', -, hsearch'⟩ := locateParent_eq_ok destination
  obtain ⟨node, hnode⟩ := Option.isSome_iff_exists.mp there
  have hinward : ¬isBelow (parent ++ [name]) (parent' ++ [name']) = true := by
    intro hbelow
    rw [isBelow, Bool.and_eq_true] at hbelow
    exact outward (List.isPrefixOf_iff_prefix.mp hbelow.1)
  have hne : parent ++ [name] ≠ parent' ++ [name'] := by
    intro heq
    exact outward (heq ▸ List.prefix_rfl)
  have houtward : ¬isBelow (parent' ++ [name']) (parent ++ [name]) = true := by
    intro hbelow
    rw [isBelow, Bool.and_eq_true] at hbelow
    have hbegins := List.isPrefixOf_iff_prefix.mp hbelow.1
    rcases free with hnone | ⟨-, -, hleaf⟩
    · have hsome := h.isSome_of_isPrefix there hbegins
      rw [hnone] at hsome
      cases hsome
    · exact hne (h.eq_of_isLeaf hleaf there hbegins)
  have htake : checkTake t who (parent ++ [name]) = .ok () := by
    apply checkTake_of_privileged privileged
    rw [List.dropLast_concat]
    exact (isDirectory_of_search hsearch).isSome
  have htake' : checkTake t who (parent' ++ [name']) = .ok () := by
    apply checkTake_of_privileged privileged
    rw [List.dropLast_concat]
    exact (isDirectory_of_search hsearch').isSome
  have hallows : ¬(node.isDirectory && parent != parent' && !who.allows node Caller.mayWrite) =
      true := by
    rw [Caller.allows, privileged, Bool.true_or, Bool.not_true, Bool.and_false]
    exact Bool.false_ne_true
  rw [rename, hcheck, hcheck', source, destination]
  simp only [bind, Except.bind]
  rw [hname]
  dsimp only
  rw [hnode, hname']
  dsimp only
  rw [if_neg hinward, if_neg houtward, if_neg hne, htake, htake']
  rcases free with hnone | ⟨⟨found, hfound, hkind⟩, ⟨other, hother, hkind'⟩, hleaf⟩
  · rw [hnone]
    dsimp only
    rw [if_neg hallows]
    rfl
  · rw [hnode] at hfound
    obtain rfl := Option.some.inj hfound
    have hdirectory : node.isDirectory = true := decide_eq_true hkind
    have hdirectory' : other.isDirectory = true := decide_eq_true hkind'
    rw [hother, names_eq_nil_iff.mpr hleaf]
    dsimp only
    rw [if_neg hallows, hdirectory, hdirectory']
    rfl

end FileSystem

namespace Export

open MetaFs.Tree

variable {e : Export} {t : Tree} {src : String} {place place' : TreePath} {r : Request}
  {edits : List Edit}

theorem Names.unique (h : e.Names t src place) (h' : e.Names t src place') : place = place' := by
  obtain ⟨below, hbelow, hentry⟩ := h
  obtain ⟨below', hbelow', hentry'⟩ := h'
  rw [hbelow'.unique hbelow] at hentry'
  exact hentry.unique hentry'

section Root

variable (h : t.WellFormed) (directory : t.IsDirectory e.root)
include h directory

end Root

section Uprooting

variable {below : List Name} {node : Node}

theorem run_names_of_spells (hbelow : Spells src below) (t : Tree) :
    (Export.names src).run.run t = (.ok below, t) := by
  obtain ⟨names, hnames, rfl⟩ := hbelow
  rw [run_names, hnames]
  rfl

theorem run_path (hbelow : Spells src below) (t : Tree) :
    (e.path src).run.run t = (.ok (e.root ++ below), t) :=
  (Over.run_bind_of_ok (run_names_of_spells hbelow t)).trans rfl

theorem run_lookup (hbelow : Spells src below) (t : Tree) :
    (e.lookup src).run.run t = (found (FileSystem.status t e.caller (e.root ++ below)), t) :=
  (Over.run_bind_of_ok (run_path hbelow t)).trans (run_lookupPath e (e.root ++ below) t)

theorem proper_append (h : t.WellFormed) (directory : t.IsDirectory e.root)
    (hbelow : Spells src below) : ∀ name ∈ e.root ++ below, name.Proper := by
  intro name hname
  rcases List.mem_append.mp hname with hmem | hmem
  · exact (h.plain e.root directory.isSome name hmem).toProper
  · exact hbelow.proper name hmem

/-- All that is above a directory are directories. -/
theorem isDirectory_of_above {root : TreePath} (h : t.WellFormed) (directory : t.IsDirectory root)
    (above : place <+: root) : t.IsDirectory place := by
  by_cases heq : place = root
  · rwa [heq]
  · exact h.isDirectory_of_isPrefix directory.isSome above heq

theorem run_change_of_ok {report : Fault → Error} {p : Tree → Except Fault Tree} {u : Tree}
    (hp : p t = .ok u) : (change report p).run.run t = (.ok (), u) := by
  rw [run_change, hp]

end Uprooting

section Linked

/-- An exported directory `e` with nothing in it but a link `u` to the directory above. -/
def linked : Tree where
  entries :=
    [([], { kind := .directory, mode := 0o755 }),
      ([[101]], { kind := .directory, mode := 0o755 }),
      ([[101], [117]], { kind := .symlink [46, 46], mode := 0o777 })]

def exported : Export where
  root := [[101]]
  listingLimit := 1000
  blockSize := 1

end Linked

end Export

end MetaFs
