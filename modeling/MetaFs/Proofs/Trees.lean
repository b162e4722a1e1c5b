import Mathlib
import MetaFs.FileSystem
import MetaFs.Proofs.ExportPages
/-! What a file tree is, and the edits that leave it one: each entry stands in a directory, and a
node that has entries is neither taken away nor written over. -/

namespace MetaFs

/-- A name that stands for an entry, and not for a step. -/
structure Name.Proper (name : Name) : Prop where
  ne_nil : name ≠ []
  ne_dot : name ≠ [46]
  ne_dots : name ≠ [46, 46]

/-- A name that an entry can have. -/
structure Name.Plain (name : Name) : Prop extends name.Proper where
  length_le : name.length ≤ FileSystem.nameLimit

instance (name : Name) : Decidable name.Plain :=
  decidable_of_iff ((name ≠ [] ∧ name ≠ [46] ∧ name ≠ [46, 46]) ∧
    name.length ≤ FileSystem.nameLimit)
    ⟨fun ⟨⟨hnil, hdot, hdots⟩, hlength⟩ => ⟨⟨hnil, hdot, hdots⟩, hlength⟩,
      fun h => ⟨⟨h.ne_nil, h.ne_dot, h.ne_dots⟩, h.length_le⟩⟩

namespace Tree

/-- There is a directory at this place. -/
def IsDirectory (t : Tree) (place : TreePath) : Prop :=
  ∃ node, t.get? place = some node ∧ node.kind = .directory

/-- Nothing is in a node. -/
def IsLeaf (t : Tree) (place : TreePath) : Prop :=
  ∀ name, t.get? (place ++ [name]) = none

structure WellFormed (t : Tree) : Prop where
  distinct : (t.entries.map Prod.fst).Nodup
  plain : ∀ place, (t.get? place).isSome → ∀ name ∈ place, name.Plain
  housed : ∀ place name, (t.get? (place ++ [name])).isSome → t.IsDirectory place

variable {t u : Tree} {place path old new : TreePath} {node : Node} {name : Name}

theorem IsDirectory.isSome (h : t.IsDirectory place) : (t.get? place).isSome := by
  obtain ⟨node, hnode, -⟩ := h
  rw [hnode]
  rfl

theorem IsDirectory.congr (h : t.IsDirectory place) (same : u.get? place = t.get? place) :
    u.IsDirectory place := by
  obtain ⟨node, hnode, hkind⟩ := h
  exact ⟨node, same.trans hnode, hkind⟩

theorem isDirectory_iff_kind :
    t.IsDirectory place ↔ (t.get? place).map Node.kind = some .directory :=
  Option.map_eq_some_iff.symm

/-- A tree has at a place what another one has there, but for the time of its last change. -/
def Kept (t u : Tree) (place : TreePath) : Prop :=
  ∃ time, u.get? place = (t.get? place).map (Node.dated time)

namespace Kept

variable {v : Tree}

theorem of_eq (h : u.get? place = t.get? place) : Kept t u place := by
  rw [Kept, h]
  cases t.get? place with
  | none => exact ⟨{}, rfl⟩
  | some node => exact ⟨node.modified, rfl⟩

theorem trans (h : Kept t u place) (h' : Kept u v place) : Kept t v place := by
  obtain ⟨time, hu⟩ := h
  obtain ⟨time', hv⟩ := h'
  refine ⟨time', hv.trans ?_⟩
  rw [hu, Option.map_map]
  rfl

theorem symm (h : Kept t u place) : Kept u t place := by
  obtain ⟨time, hu⟩ := h
  rw [Kept, hu]
  cases t.get? place with
  | none => exact ⟨{}, rfl⟩
  | some node => exact ⟨node.modified, rfl⟩

theorem exists_dated (h : Kept t u place) (hnode : t.get? place = some node) :
    ∃ time, u.get? place = some (node.dated time) := by
  obtain ⟨time, hu⟩ := h
  exact ⟨time, by rw [hu, hnode, Option.map_some]⟩

theorem kind_eq (h : Kept t u place) :
    (u.get? place).map Node.kind = (t.get? place).map Node.kind := by
  obtain ⟨time, hu⟩ := h
  rw [hu, Option.map_map]
  rfl

theorem isSome_eq (h : Kept t u place) : (u.get? place).isSome = (t.get? place).isSome := by
  obtain ⟨time, hu⟩ := h
  rw [hu, Option.isSome_map]

theorem eq_none (h : Kept t u place) (hnone : t.get? place = none) : u.get? place = none := by
  obtain ⟨time, hu⟩ := h
  rw [hu, hnone, Option.map_none]

theorem isDirectory (h : Kept t u place) (directory : t.IsDirectory place) :
    u.IsDirectory place := by
  rw [isDirectory_iff_kind] at directory ⊢
  rw [h.kind_eq, directory]

end Kept

/-! Looking up what an edit has left. -/

section Lookup

theorem isSome_get?_iff : (t.get? place).isSome ↔ place ∈ t.entries.map Prod.fst := by
  rw [get?, List.lookup_isSome_iff, List.mem_map]
  constructor
  · intro h
    obtain ⟨entry, hentry, hplace⟩ := h
    exact ⟨entry, hentry, (beq_iff_eq.mp hplace).symm⟩
  · intro h
    obtain ⟨entry, hentry, hplace⟩ := h
    exact ⟨entry, hentry, beq_iff_eq.mpr hplace.symm⟩

theorem mem_of_get? (h : t.get? place = some node) : (place, node) ∈ t.entries := by
  obtain ⟨before, after, hentries, -⟩ := List.lookup_eq_some_iff.mp h
  rw [hentries]
  exact List.mem_append_right before List.mem_cons_self

theorem get?_of_mem (distinct : (t.entries.map Prod.fst).Nodup) (h : (place, node) ∈ t.entries) :
    t.get? place = some node := by
  obtain ⟨found, hfound⟩ : ∃ found, t.get? place = some found :=
    Option.isSome_iff_exists.mp (isSome_get?_iff.mpr (List.mem_map_of_mem h))
  -- Two entries of one path are the same entry.
  have hentry := List.inj_on_of_nodup_map distinct (mem_of_get? hfound) h rfl
  rw [hfound, (Prod.mk.inj hentry).2]

theorem lookup_filter (keeps : TreePath → Bool) (entries : List (TreePath × Node))
    (place : TreePath) : (entries.filter fun entry => keeps entry.1).lookup place =
      if keeps place then entries.lookup place else none := by
  induction entries with
  | nil => rw [List.filter_nil, List.lookup_nil, ite_self]
  | cons entry rest ih =>
    rw [List.filter_cons]
    by_cases hplace : place = entry.1
    · rw [hplace] at ih ⊢
      by_cases hentry : keeps entry.1
      · rw [if_pos hentry, if_pos hentry, List.lookup_cons_self]
        exact List.lookup_cons_self.symm
      · rw [if_neg hentry, if_neg hentry, ih, if_neg hentry]
    · have hne : (place == entry.1) = false := beq_eq_false_iff_ne.mpr hplace
      rw [List.lookup_cons, hne, ← ih]
      by_cases hentry : keeps entry.1
      · rw [if_pos hentry, List.lookup_cons, hne]
      · rw [if_neg hentry]

theorem get?_erase : (t.erase path).get? place = if place = path then none else t.get? place := by
  rw [get?, erase, lookup_filter (· != path), get?]
  by_cases h : place = path
  · rw [if_pos h, if_neg (by simpa using h)]
  · rw [if_neg h, if_pos (by simpa using h)]

theorem get?_put : (t.put path node).get? place =
    if place = path then some node else t.get? place := by
  show ((path, node) :: (t.erase path).entries).lookup place = _
  rw [List.lookup_cons]
  by_cases h : place = path
  · rw [beq_iff_eq.mpr h, if_pos h]
  · rw [if_neg h, beq_eq_false_iff_ne.mpr h]
    exact get?_erase.trans (if_neg h)

theorem isSome_of_isSome_get?_erase (h : ((t.erase path).get? place).isSome) :
    (t.get? place).isSome := by
  rw [get?_erase] at h
  split_ifs at h
  · cases h
  · exact h

theorem distinct_erase (distinct : (t.entries.map Prod.fst).Nodup) (path : TreePath) :
    ((t.erase path).entries.map Prod.fst).Nodup :=
  distinct.sublist (List.filter_sublist.map _)

theorem distinct_put (distinct : (t.entries.map Prod.fst).Nodup) (path : TreePath) (node : Node) :
    ((t.put path node).entries.map Prod.fst).Nodup := by
  refine List.nodup_cons.mpr ⟨?_, distinct_erase distinct path⟩
  intro h
  obtain ⟨entry, hentry, hpath⟩ := List.mem_map.mp h
  have hne := (List.mem_filter.mp hentry).2
  exact absurd hpath (bne_iff_ne.mp hne)

theorem lookup_map_snd (f : TreePath → Node → Node) (entries : List (TreePath × Node))
    (place : TreePath) : (entries.map fun entry => (entry.1, f entry.1 entry.2)).lookup place =
      (entries.lookup place).map (f place) := by
  induction entries with
  | nil => rfl
  | cons entry rest ih =>
    rw [List.map_cons, List.lookup_cons, List.lookup_cons, ih]
    by_cases h : place = entry.1
    · rw [h, beq_self_eq_true]
      rfl
    · rw [beq_eq_false_iff_ne.mpr h]

theorem get?_touch : (t.touch path).get? place =
    if place = path then (t.get? place).map (Node.dated t.now) else t.get? place := by
  rw [get?, touch, lookup_map_snd fun place node => if place = path then node.dated t.now else node,
    get?]
  by_cases h : place = path
  · simp only [if_pos h]
  · simp only [if_neg h, Option.map_id']

theorem distinct_touch (distinct : (t.entries.map Prod.fst).Nodup) (path : TreePath) :
    ((t.touch path).entries.map Prod.fst).Nodup := by
  rw [touch, List.map_map]
  exact distinct

theorem kept_touch (t : Tree) (path place : TreePath) : Kept t (t.touch path) place := by
  by_cases h : place = path
  · exact ⟨t.now, by rw [get?_touch, if_pos h]⟩
  · exact .of_eq (by rw [get?_touch, if_neg h])

/-- Where an entry is after a move. -/
def relocate (old new path : TreePath) : TreePath :=
  if old.isPrefixOf path then new ++ path.drop old.length else path

theorem relocate_append (old new rest : TreePath) :
    relocate old new (old ++ rest) = new ++ rest := by
  rw [relocate, if_pos (List.isPrefixOf_iff_prefix.mpr (List.prefix_append old rest)),
    List.drop_left]

theorem relocate_eq_self (h : ¬old <+: path) : relocate old new path = path := by
  rw [relocate, if_neg (mt List.isPrefixOf_iff_prefix.mp h)]

theorem entries_move (t : Tree) (old new : TreePath) : (t.move old new).entries =
    t.entries.map fun entry => (relocate old new entry.1, entry.2) := by
  apply List.map_congr_left
  intro entry _
  obtain ⟨path, node⟩ := entry
  dsimp only
  rw [relocate]
  split_ifs <;> rfl

theorem mem_entries_move : (place, node) ∈ (t.move old new).entries ↔
    ∃ path, (path, node) ∈ t.entries ∧ relocate old new path = place := by
  rw [entries_move, List.mem_map]
  constructor
  · intro h
    obtain ⟨⟨path, found⟩, hentry, hmoved⟩ := h
    cases hmoved
    exact ⟨path, hentry, rfl⟩
  · intro h
    obtain ⟨path, hentry, hplace⟩ := h
    exact ⟨(path, node), hentry, by rw [hplace]⟩

/-- Nothing is where the move goes to, so that no two entries come together there. -/
theorem distinct_move (distinct : (t.entries.map Prod.fst).Nodup)
    (free : ∀ place, new <+: place → t.get? place = none) :
    ((t.move old new).entries.map Prod.fst).Nodup := by
  have hmap : (t.move old new).entries.map Prod.fst =
      (t.entries.map Prod.fst).map (relocate old new) := by
    rw [entries_move, List.map_map, List.map_map]
    rfl
  have hfree : ∀ path ∈ t.entries.map Prod.fst, ¬new <+: path := by
    intro path hpath hbegins
    have hsome := isSome_get?_iff.mpr hpath
    rw [free path hbegins] at hsome
    cases hsome
  rw [hmap]
  apply List.Nodup.map_on _ distinct
  intro path hpath path' hpath' heq
  by_cases h : old <+: path
  · obtain ⟨rest, rfl⟩ := h
    rw [relocate_append] at heq
    by_cases h' : old <+: path'
    · obtain ⟨rest', rfl⟩ := h'
      rw [relocate_append] at heq
      rw [List.append_cancel_left heq]
    · rw [relocate_eq_self h'] at heq
      exact absurd ⟨rest, heq⟩ (hfree path' hpath')
  · rw [relocate_eq_self h] at heq
    by_cases h' : old <+: path'
    · obtain ⟨rest', rfl⟩ := h'
      rw [relocate_append] at heq
      exact absurd ⟨rest', heq.symm⟩ (hfree path hpath)
    · rwa [relocate_eq_self h'] at heq

theorem get?_move (distinct : (t.entries.map Prod.fst).Nodup)
    (free : ∀ place, new <+: place → t.get? place = none) :
    (t.move old new).get? place =
      if new <+: place then t.get? (old ++ place.drop new.length)
      else if old <+: place then none else t.get? place := by
  have hmoved : ((t.move old new).entries.map Prod.fst).Nodup := distinct_move distinct free
  -- What is at a place now was at the one that is moved to it.
  have hget (found : Node) : (t.move old new).get? place = some found ↔
      ∃ path, t.get? path = some found ∧ relocate old new path = place := by
    constructor
    · intro h
      obtain ⟨path, hpath, hplace⟩ := mem_entries_move.mp (mem_of_get? h)
      exact ⟨path, get?_of_mem distinct hpath, hplace⟩
    · intro h
      obtain ⟨path, hpath, hplace⟩ := h
      exact get?_of_mem hmoved (mem_entries_move.mpr ⟨path, mem_of_get? hpath, hplace⟩)
  apply Option.ext
  intro found
  rw [hget]
  split_ifs with hnew hold
  · obtain ⟨rest, rfl⟩ := hnew
    rw [List.drop_left]
    constructor
    · intro h
      obtain ⟨path, hpath, hplace⟩ := h
      by_cases hbegins : old <+: path
      · obtain ⟨rest', rfl⟩ := hbegins
        rw [relocate_append] at hplace
        rwa [← List.append_cancel_left hplace]
      · rw [relocate_eq_self hbegins] at hplace
        rw [free path ⟨rest, hplace.symm⟩] at hpath
        cases hpath
    · intro h
      exact ⟨old ++ rest, h, relocate_append old new rest⟩
  · constructor
    · intro h
      obtain ⟨path, hpath, hplace⟩ := h
      by_cases hbegins : old <+: path
      · obtain ⟨rest', rfl⟩ := hbegins
        rw [relocate_append] at hplace
        exact absurd ⟨rest', hplace⟩ hnew
      · rw [relocate_eq_self hbegins] at hplace
        exact absurd (hplace ▸ hold) hbegins
    · intro h
      cases h
  · constructor
    · intro h
      obtain ⟨path, hpath, hplace⟩ := h
      by_cases hbegins : old <+: path
      · obtain ⟨rest', rfl⟩ := hbegins
        rw [relocate_append] at hplace
        exact absurd ⟨rest', hplace⟩ hnew
      · rw [relocate_eq_self hbegins] at hplace
        rwa [← hplace]
    · intro h
      exact ⟨place, h, relocate_eq_self hold⟩

end Lookup

theorem isDirectory_iff : t.IsDirectory place ↔ (t.get? place).any Node.isDirectory = true := by
  rw [IsDirectory]
  cases hnode : t.get? place with
  | none => simp
  | some node => simp [Node.isDirectory]

theorem isDirectory_iff_of_get? (h : t.get? place = some node) :
    t.IsDirectory place ↔ node.isDirectory = true := by
  rw [isDirectory_iff, h, Option.any_some]

instance (t : Tree) (place : TreePath) : Decidable (t.IsDirectory place) :=
  decidable_of_iff _ isDirectory_iff.symm

/-- A file tree is told by its entries. -/
theorem wellFormed_iff : t.WellFormed ↔ (t.entries.map Prod.fst).Nodup ∧ ∀ entry ∈ t.entries,
    (∀ name ∈ entry.1, name.Plain) ∧ (entry.1 ≠ [] → t.IsDirectory entry.1.dropLast) := by
  constructor
  · intro h
    refine ⟨h.distinct, fun entry hentry => ?_⟩
    have hsome := isSome_get?_iff.mpr (List.mem_map_of_mem (f := Prod.fst) hentry)
    refine ⟨h.plain entry.1 hsome, fun hne => ?_⟩
    rw [← List.dropLast_concat_getLast hne] at hsome
    exact h.housed _ _ hsome
  · intro h
    obtain ⟨hdistinct, hentries⟩ := h
    have hmem {place : TreePath} (hsome : (t.get? place).isSome) :
        (∀ name ∈ place, name.Plain) ∧ (place ≠ [] → t.IsDirectory place.dropLast) := by
      obtain ⟨entry, hentry, rfl⟩ := List.mem_map.mp (isSome_get?_iff.mp hsome)
      exact hentries entry hentry
    refine ⟨hdistinct, fun place hsome => (hmem hsome).1, fun place name hsome => ?_⟩
    have hhoused := (hmem hsome).2
      (List.append_ne_nil_of_right_ne_nil place (List.cons_ne_nil name []))
    rwa [List.dropLast_concat] at hhoused

instance (t : Tree) : Decidable t.WellFormed :=
  decidable_of_iff _ wellFormed_iff.symm

/-! The names in a directory. -/

theorem names_eq_nil_iff : t.names place = [] ↔ t.IsLeaf place := by
  rw [List.eq_nil_iff_forall_not_mem]
  apply forall_congr'
  intro name
  rw [mem_names, Bool.not_eq_true, Option.isSome_eq_false_iff, Option.isNone_iff_eq_none]

namespace WellFormed

theorem proper (h : t.WellFormed) : t.Proper := by
  refine ⟨h.distinct, ?_⟩
  intro entry hentry hnil
  have hsome := isSome_get?_iff.mpr (List.mem_map_of_mem (f := Prod.fst) hentry)
  exact (h.plain entry.1 hsome [] hnil).ne_nil rfl

/-- All that is above an entry are directories. -/
theorem isDirectory_of_isPrefix (h : t.WellFormed) (hsome : (t.get? path).isSome)
    (hbegins : place <+: path) (hne : place ≠ path) : t.IsDirectory place := by
  obtain ⟨rest, rfl⟩ := hbegins
  induction rest using List.reverseRecOn with
  | nil => exact absurd (List.append_nil place).symm hne
  | append_singleton rest name ih =>
    rw [← List.append_assoc] at hsome
    have hdirectory := h.housed _ name hsome
    by_cases hrest : rest = []
    · rwa [hrest, List.append_nil] at hdirectory
    · apply ih hdirectory.isSome
      intro heq
      exact hrest (List.self_eq_append_right.mp heq)

theorem isSome_of_isPrefix (h : t.WellFormed) (hsome : (t.get? path).isSome)
    (hbegins : place <+: path) : (t.get? place).isSome := by
  by_cases hne : place = path
  · rwa [hne]
  · exact (h.isDirectory_of_isPrefix hsome hbegins hne).isSome

/-- With a leaf nothing is below a place. -/
theorem eq_of_isLeaf (h : t.WellFormed) (leaf : t.IsLeaf place) (hsome : (t.get? path).isSome)
    (hbegins : place <+: path) : path = place := by
  obtain ⟨rest, rfl⟩ := hbegins
  cases rest with
  | nil => exact List.append_nil place
  | cons name rest =>
    have hchild : (t.get? (place ++ [name])).isSome :=
      h.isSome_of_isPrefix hsome ⟨rest, List.append_assoc place [name] rest⟩
    rw [leaf name] at hchild
    cases hchild

/-- Whether a table is a file tree depends on its paths and on the kinds of the nodes. -/
theorem of_kind_eq (h : t.WellFormed) (distinct : (u.entries.map Prod.fst).Nodup)
    (kinds : ∀ place, (u.get? place).map Node.kind = (t.get? place).map Node.kind) :
    u.WellFormed := by
  have hsome (place : TreePath) : (u.get? place).isSome = (t.get? place).isSome := by
    rw [← Option.isSome_map (f := Node.kind), kinds, Option.isSome_map]
  refine ⟨distinct, fun place hplace => ?_, fun place name hplace => ?_⟩
  · rw [hsome] at hplace
    exact h.plain place hplace
  · rw [hsome] at hplace
    rw [isDirectory_iff_kind, kinds, ← isDirectory_iff_kind]
    exact h.housed place name hplace

theorem touch (h : t.WellFormed) (path : TreePath) : (t.touch path).WellFormed :=
  h.of_kind_eq (distinct_touch h.distinct path) fun place => (kept_touch t path place).kind_eq

theorem isLeaf_of_not_isDirectory (h : t.WellFormed) (hnot : ¬t.IsDirectory place) :
    t.IsLeaf place := by
  intro name
  by_contra hsome
  exact hnot (h.housed place name (Option.isSome_iff_ne_none.mpr hsome))

end WellFormed

/-- Strictly inside of what is at a place. -/
def Below (base place : TreePath) : Prop :=
  base <+: place ∧ place ≠ base

theorem Below.not_isPrefix (h : Below path place) : ¬place <+: path := by
  intro hbegins
  exact h.2 (hbegins.eq_of_length_le h.1.length_le)

theorem below_concat (base : TreePath) (name : Name) : Below base (base ++ [name]) :=
  ⟨List.prefix_append base [name], fun h => List.cons_ne_nil _ _ (List.append_right_eq_self.mp h)⟩

theorem Below.isPrefix_parent {base parent : TreePath} (h : Below base (parent ++ [name])) :
    base <+: parent := by
  rcases List.prefix_concat_iff.mp h.1 with heq | hbegins
  · exact absurd heq.symm h.2
  · exact hbegins

theorem Below.isPrefix_dropLast {base : TreePath} (h : Below base place) :
    base <+: place.dropLast := by
  cases place using List.reverseRecOn with
  | nil => exact absurd (List.prefix_nil.mp h.1).symm h.2
  | append_singleton parent name =>
    rw [List.dropLast_concat]
    exact h.isPrefix_parent

theorem Below.trans_isPrefix {base : TreePath} (h : Below base path) (hbegins : path <+: place) :
    Below base place := by
  refine ⟨h.1.trans hbegins, ?_⟩
  intro heq
  exact h.not_isPrefix (heq ▸ hbegins)

theorem Below.of_isPrefix {base : TreePath} (h : Below path place) (hbegins : base <+: path) :
    Below base place := by
  refine ⟨hbegins.trans h.1, ?_⟩
  rintro rfl
  exact h.not_isPrefix hbegins

/-- A change at one place of a tree, or the move of all that is at a place to another one. -/
inductive Edit where
  | add (place : TreePath) (node : Node)
  | set (place : TreePath) (node : Node)
  | remove (place : TreePath)
  | move (old new : TreePath)

namespace Edit

def apply : Edit → Tree → Tree
  | add place node, t => t.link place node
  | set place node, t => t.put place node
  | remove place, t => t.unlink place
  | move old new, t => t.relink old new

/-- What an edit does to the places that it names. -/
def change : Edit → Tree → Tree
  | add place node, t | set place node, t => t.put place node
  | remove place, t => t.erase place
  | move old new, t => (t.erase new).move old new

/-- The directories that an edit dates, as their entries change. -/
def parents : Edit → List TreePath
  | add place _ | remove place => [place.dropLast]
  | set .. => []
  | move old new => [old.dropLast, new.dropLast]

/-- What has to be so where an edit is made. -/
inductive Fits (t : Tree) : Edit → Prop where
  | add {parent : TreePath} {name : Name} {node : Node} (plain : name.Plain)
      (housed : t.IsDirectory parent) (free : t.get? (parent ++ [name]) = none)
      (empty : node.kind = .directory) : Fits t (.add (parent ++ [name]) node)
  | set {place : TreePath} {before node : Node} (there : t.get? place = some before)
      (kind : node.kind = before.kind) : Fits t (.set place node)
  | remove {place : TreePath} (there : (t.get? place).isSome) (leaf : t.IsLeaf place) :
      Fits t (.remove place)
  | move {old parent : TreePath} {name : Name} (there : (t.get? old).isSome) (plain : name.Plain)
      (housed : t.IsDirectory parent) (leaf : t.IsLeaf (parent ++ [name]))
      (outward : ¬old <+: parent ++ [name]) : Fits t (.move old (parent ++ [name]))

/-- The edit is made inside of a directory. The directory itself may get other attributes, but it is
neither taken away nor moved. -/
def Within (base : TreePath) : Edit → Prop
  | add place _ => Below base place
  | set place _ => base <+: place
  | remove place => Below base place
  | move old new => Below base old ∧ Below base new

/-- The edit takes nothing away from a place or from above it, and it moves nothing from there or to
there. -/
def Spares (root : TreePath) : Edit → Prop
  | add .. | set .. => True
  | remove place => ¬place <+: root
  | move old new => ¬old <+: root ∧ ¬new <+: root

variable {edit : Edit} {base parent : TreePath}

theorem Within.spares (within : edit.Within base) : edit.Spares base := by
  cases edit with
  | add | set => trivial
  | remove => exact Below.not_isPrefix within
  | move => exact ⟨within.1.not_isPrefix, within.2.not_isPrefix⟩

/-- What is moved comes to a place where nothing is left. -/
theorem get?_erase_of_isLeaf (h : t.WellFormed) (leaf : t.IsLeaf new) (hbegins : new <+: place) :
    (t.erase new).get? place = none := by
  rw [get?_erase]
  split_ifs with hplace
  · rfl
  · by_contra hsome
    exact hplace (h.eq_of_isLeaf leaf (Option.isSome_iff_ne_none.mpr hsome) hbegins)

theorem get?_change_move (h : t.WellFormed) (leaf : t.IsLeaf new) (outward : ¬old <+: new) :
    ((move old new).change t).get? place =
      if new <+: place then t.get? (old ++ place.drop new.length)
      else if old <+: place then none else t.get? place := by
  rw [change, get?_move (distinct_erase h.distinct new) fun _ => get?_erase_of_isLeaf h leaf]
  split_ifs with hnew hold
  · rw [get?_erase, if_neg]
    intro heq
    exact outward ⟨_, heq⟩
  · rfl
  · rw [get?_erase, if_neg]
    intro heq
    exact hnew (heq ▸ List.prefix_rfl)

theorem get?_change_move_append (h : t.WellFormed) (leaf : t.IsLeaf new) (outward : ¬old <+: new)
    (rest : TreePath) : ((move old new).change t).get? (new ++ rest) = t.get? (old ++ rest) := by
  rw [get?_change_move h leaf outward, if_pos (List.prefix_append new rest), List.drop_left]

theorem wellFormed_move (h : t.WellFormed) (plain : name.Plain) (housed : t.IsDirectory parent)
    (leaf : t.IsLeaf (parent ++ [name])) (outward : ¬old <+: parent ++ [name]) :
    ((move old (parent ++ [name])).change t).WellFormed := by
  refine ⟨distinct_move (distinct_erase h.distinct _) fun _ => get?_erase_of_isLeaf h leaf, ?_, ?_⟩
  · intro place hsome other hother
    by_cases hnew : parent ++ [name] <+: place
    · obtain ⟨rest, rfl⟩ := hnew
      rw [get?_change_move_append h leaf outward] at hsome
      rw [List.append_assoc, List.mem_append, List.mem_append, List.mem_singleton] at hother
      rcases hother with hparent | rfl | hrest
      · exact h.plain parent housed.isSome other hparent
      · exact plain
      · exact h.plain _ hsome other (List.mem_append_right old hrest)
    · rw [get?_change_move h leaf outward, if_neg hnew] at hsome
      split_ifs at hsome
      · cases hsome
      · exact h.plain place hsome other hother
  · intro place other hsome
    by_cases hnew : parent ++ [name] <+: place ++ [other]
    · rcases List.prefix_concat_iff.mp hnew with heq | hbegins
      -- The directory that the moved node comes to is where it was.
      · obtain ⟨rfl, -⟩ := List.append_inj' heq rfl
        apply housed.congr
        rw [get?_change_move h leaf outward, if_neg, if_neg]
        · intro hold
          exact outward (hold.trans (List.prefix_append parent [name]))
        · intro hself
          exact (below_concat parent name).not_isPrefix hself
      · obtain ⟨rest, rfl⟩ := hbegins
        rw [List.append_assoc, get?_change_move_append h leaf outward, ← List.append_assoc] at hsome
        obtain ⟨node, hnode, hkind⟩ := h.housed _ other hsome
        exact ⟨node, (get?_change_move_append h leaf outward rest).trans hnode, hkind⟩
    · rw [get?_change_move h leaf outward, if_neg hnew] at hsome
      split_ifs at hsome with hold
      · cases hsome
      · apply (h.housed place other hsome).congr
        rw [get?_change_move h leaf outward, if_neg, if_neg]
        · intro hbegins
          exact hold (hbegins.trans (List.prefix_append place [other]))
        · intro hbegins
          exact hnew (hbegins.trans (List.prefix_append place [other]))

theorem wellFormed_put (h : t.WellFormed) (plain : name.Plain) (housed : t.IsDirectory parent)
    (free : t.get? (parent ++ [name]) = none) (node : Node) :
    (t.put (parent ++ [name]) node).WellFormed := by
  refine ⟨distinct_put h.distinct _ _, ?_, ?_⟩
  · intro place hsome
    rw [get?_put] at hsome
    split_ifs at hsome with hplace
    · intro other hother
      rw [hplace, List.mem_append, List.mem_singleton] at hother
      rcases hother with hmem | rfl
      · exact h.plain parent housed.isSome other hmem
      · exact plain
    · exact h.plain place hsome
  · intro place other hsome
    have hhoused : t.IsDirectory place := by
      rw [get?_put] at hsome
      split_ifs at hsome with hplace
      · rwa [(List.append_inj' hplace rfl).1]
      · exact h.housed place other hsome
    apply hhoused.congr
    rw [get?_put, if_neg]
    intro hplace
    have hthere := hhoused.isSome
    rw [hplace, free] at hthere
    cases hthere

/-- What is done to the places that an edit names leaves a file tree. -/
theorem Fits.wellFormed_change (fits : edit.Fits t) (h : t.WellFormed) :
    (edit.change t).WellFormed := by
  cases fits with
  | add plain housed free empty => exact wellFormed_put h plain housed free _
  | @set path before node there kind =>
    refine h.of_kind_eq (distinct_put h.distinct path node) fun place => ?_
    rw [change, get?_put]
    split_ifs with hplace
    · rw [hplace, there, Option.map_some, Option.map_some, kind]
    · rfl
  | @remove path there leaf =>
    refine ⟨distinct_erase h.distinct path, ?_, ?_⟩
    · intro place hsome
      exact h.plain place (isSome_of_isSome_get?_erase hsome)
    · intro place name hsome
      have hsome' := isSome_of_isSome_get?_erase hsome
      apply (h.housed place name hsome').congr
      rw [change, get?_erase, if_neg]
      -- A leaf has no entry that is left behind.
      intro hplace
      rw [hplace, leaf name] at hsome'
      cases hsome'
  | @move old parent name there plain housed leaf outward =>
    exact wellFormed_move h plain housed leaf outward

/-! The directories whose entries an edit changes get another time, and nothing else of them or of
another node changes. -/

theorem apply_eq (edit : Edit) (t : Tree) :
    edit.apply t = edit.parents.foldl touch (edit.change t) := by
  cases edit <;> rfl

theorem clock_change (edit : Edit) (t : Tree) : (edit.change t).clock = t.clock := by
  cases edit <;> rfl

theorem kept_touches (paths : List TreePath) (t : Tree) (place : TreePath) :
    Kept t (paths.foldl touch t) place := by
  induction paths generalizing t with
  | nil => exact .of_eq rfl
  | cons path paths ih => exact (kept_touch t path place).trans (ih (t.touch path))

theorem wellFormed_touches (h : t.WellFormed) (paths : List TreePath) :
    (paths.foldl touch t).WellFormed := by
  induction paths generalizing t with
  | nil => exact h
  | cons path paths ih => exact ih (h.touch path)

theorem get?_touches_of_not_mem {paths : List TreePath} (hplace : place ∉ paths) :
    (paths.foldl touch t).get? place = t.get? place := by
  induction paths generalizing t with
  | nil => rfl
  | cons path paths ih =>
    rw [List.mem_cons, not_or] at hplace
    obtain ⟨hne, hrest⟩ := hplace
    rw [List.foldl_cons, ih hrest, get?_touch, if_neg hne]

/-- The moments go by as often on both trees. -/
theorem touches_congr {P : TreePath → Prop} (paths : List TreePath) (clock : u.clock = t.clock)
    (same : ∀ place, P place → u.get? place = t.get? place) :
    (paths.foldl touch u).clock = (paths.foldl touch t).clock ∧
      ∀ place, P place → (paths.foldl touch u).get? place = (paths.foldl touch t).get? place := by
  induction paths generalizing t u with
  | nil => exact ⟨clock, same⟩
  | cons path paths ih =>
    refine ih (by rw [touch, touch, clock]) fun place hplace => ?_
    rw [get?_touch, get?_touch, same place hplace, now, now, clock]

theorem kept_apply (edit : Edit) (t : Tree) (place : TreePath) :
    Kept (edit.change t) (edit.apply t) place := by
  rw [apply_eq]
  exact kept_touches edit.parents (edit.change t) place

theorem get?_apply_of_not_mem (edit : Edit) (h : place ∉ edit.parents) :
    (edit.apply t).get? place = (edit.change t).get? place := by
  rw [apply_eq, get?_touches_of_not_mem h]

/-- What is made is not dated over, as it is not the directory that it is made in. -/
theorem get?_link_self (parent : TreePath) (name : Name) (node : Node) :
    (t.link (parent ++ [name]) node).get? (parent ++ [name]) = some node := by
  refine (get?_apply_of_not_mem (.add (parent ++ [name]) node) ?_).trans ?_
  · rw [parents, List.mem_singleton, List.dropLast_concat]
    exact (below_concat parent name).2
  · rw [change, get?_put, if_pos rfl]

theorem kept_link (node : Node) (h : place ≠ path) : Kept t (t.link path node) place := by
  have hput : (t.put path node).get? place = t.get? place := by rw [get?_put, if_neg h]
  exact (Kept.of_eq hput).trans (kept_apply (.add path node) t place)

theorem kept_unlink (h : place ≠ path) : Kept t (t.unlink path) place := by
  have herase : (t.erase path).get? place = t.get? place := by rw [get?_erase, if_neg h]
  exact (Kept.of_eq herase).trans (kept_apply (.remove path) t place)

theorem Within.isPrefix_of_mem_parents (within : edit.Within base) (h : place ∈ edit.parents) :
    base <+: place := by
  cases edit with
  | add | remove =>
    obtain rfl := List.mem_singleton.mp h
    exact Below.isPrefix_dropLast within
  | set => cases h
  | move =>
    rcases List.mem_pair.mp h with rfl | rfl
    · exact within.1.isPrefix_dropLast
    · exact within.2.isPrefix_dropLast

/-- An edit leaves a file tree. -/
theorem Fits.wellFormed (fits : edit.Fits t) (h : t.WellFormed) : (edit.apply t).WellFormed := by
  rw [apply_eq]
  exact wellFormed_touches (fits.wellFormed_change h) edit.parents

/-- An edit inside of a directory changes nothing outside of it. -/
theorem Fits.get?_apply_of_within (fits : edit.Fits t) (h : t.WellFormed)
    (within : edit.Within base) (hout : ¬base <+: place) :
    (edit.apply t).get? place = t.get? place := by
  have hne {path : TreePath} (hpath : base <+: path) : place ≠ path := by
    intro heq
    exact hout (heq ▸ hpath)
  have hnot {path : TreePath} (hpath : base <+: path) : ¬path <+: place := by
    intro hbegins
    exact hout (hpath.trans hbegins)
  rw [get?_apply_of_not_mem edit fun hmem => hout (within.isPrefix_of_mem_parents hmem)]
  cases fits with
  | add => rw [change, get?_put, if_neg (hne within.1)]
  | set => rw [change, get?_put, if_neg (hne within)]
  | remove => rw [change, get?_erase, if_neg (hne within.1)]
  | move there plain housed leaf outward =>
    rw [get?_change_move h leaf outward, if_neg (hnot within.2.1), if_neg (hnot within.1.1)]

/-- A directory that an edit spares is there afterwards, with the attributes that the edit may give
it. -/
theorem Fits.isDirectory_of_spares (fits : edit.Fits t) (h : t.WellFormed)
    (spares : edit.Spares base) (hbase : t.IsDirectory base) : (edit.apply t).IsDirectory base := by
  apply (kept_apply edit t base).isDirectory
  cases fits with
  | @add parent name node plain housed free empty =>
    apply hbase.congr
    rw [change, get?_put, if_neg]
    intro heq
    have hsome := hbase.isSome
    rw [heq, free] at hsome
    cases hsome
  | @set path before node there kind =>
    obtain ⟨found, hfound, hkind⟩ := hbase
    rw [change, IsDirectory, get?_put]
    split_ifs with hpath
    · rw [hpath, there] at hfound
      obtain rfl := Option.some.inj hfound
      exact ⟨node, rfl, kind.trans hkind⟩
    · exact ⟨found, hfound, hkind⟩
  | @remove path there leaf =>
    apply hbase.congr
    rw [change, get?_erase, if_neg]
    intro heq
    exact spares (heq ▸ List.prefix_rfl)
  | move there plain housed leaf outward =>
    apply hbase.congr
    rw [get?_change_move h leaf outward, if_neg spares.2, if_neg spares.1]

/-- Two trees that are the same inside of a directory admit the same edits there. -/
theorem Fits.congr (fits : edit.Fits t) (within : edit.Within base)
    (same : ∀ place, base <+: place → u.get? place = t.get? place) : edit.Fits u := by
  cases fits with
  | add plain housed free empty =>
    refine .add plain (housed.congr (same _ within.isPrefix_parent)) ?_ empty
    rw [same _ within.1, free]
  | set there kind => exact .set ((same _ within).trans there) kind
  | remove there leaf =>
    refine .remove (by rwa [same _ within.1]) ?_
    intro name
    rw [same _ (within.1.trans (List.prefix_append _ _)), leaf name]
  | move there plain housed leaf outward =>
    refine .move (by rwa [same _ within.1.1]) plain
      (housed.congr (same _ within.2.isPrefix_parent)) ?_ outward
    intro name
    rw [same _ (within.2.1.trans (List.prefix_append _ _)), leaf name]

/-- Edits of two such trees at the same moments leave such trees. -/
theorem Fits.apply_congr (fits : edit.Fits t) (fits' : edit.Fits u) (ht : t.WellFormed)
    (hu : u.WellFormed) (within : edit.Within base) (clock : u.clock = t.clock)
    (same : ∀ place, base <+: place → u.get? place = t.get? place) :
    (edit.apply u).clock = (edit.apply t).clock ∧
      ∀ place, base <+: place → (edit.apply u).get? place = (edit.apply t).get? place := by
  rw [apply_eq, apply_eq]
  have hclock : (edit.change u).clock = (edit.change t).clock := by
    rw [clock_change, clock_change, clock]
  refine touches_congr edit.parents hclock fun place hplace => ?_
  cases fits with
  | add => rw [change, change, get?_put, get?_put, same place hplace]
  | set => rw [change, change, get?_put, get?_put, same place hplace]
  | remove => rw [change, change, get?_erase, get?_erase, same place hplace]
  | @move old parent name there plain housed leaf outward =>
    have leaf' : u.IsLeaf (parent ++ [name]) := by
      intro other
      rw [same _ (within.2.1.trans (List.prefix_append _ _)), leaf other]
    rw [get?_change_move ht leaf outward, get?_change_move hu leaf' outward, same place hplace,
      same _ (within.1.1.trans (List.prefix_append _ _))]

end Edit

end Tree

end MetaFs
