import Mathlib
import MetaFs.Proofs.Removal
import MetaFs.Proofs.UrlPaths
import MetaFs.Proofs.Utf8
/-! What a request to an export looks at and what it changes. On two trees that are the same inside
of a directory which no path of the request leads out of, it has the same answer and makes the same
edits. -/

namespace MetaFs

namespace ExportPath

/-- A name of a path text: it is no step, and no slash is in it. -/
structure IsName (name : String) : Prop where
  ne_nil : name.toList ≠ []
  ne_dot : name.toList ≠ ['.']
  ne_dots : name.toList ≠ ['.', '.']
  no_slash : '/' ∉ name.toList

theorem names_eq_ok {src : String} {names : List String} (h : ExportPath.names src = .ok names) :
    ∀ name ∈ names, IsName name := by
  rw [ExportPath.names] at h
  split_ifs at h
  dsimp only at h
  split_ifs at h with hdots
  cases h
  intro name hname
  obtain ⟨component, hcomponent, rfl⟩ := List.mem_map.mp hname
  obtain ⟨hpart, hfilter⟩ := List.mem_filter.mp hcomponent
  rw [Bool.and_eq_true, decide_eq_true_eq, decide_eq_true_eq] at hfilter
  constructor <;> rw [String.toList_ofList]
  · exact hfilter.1
  · exact hfilter.2
  · rintro rfl
    exact hdots (List.contains_iff_mem.mpr hcomponent)
  · intro hslash
    have hseparates := (Url.mem_of_mem_parts hpart hslash).1
    exact absurd hseparates (by decide)

/-- The path text with these names. -/
def text (names : List String) : String :=
  String.ofList ('/' :: ['/'].intercalate (names.map String.toList))

end ExportPath

namespace Export

open MetaFs.Tree

/-- The names below the exported directory that a path text stands for. -/
def Spells (src : String) (below : List Name) : Prop :=
  ∃ names : List String, ExportPath.names src = .ok names ∧
    below = names.map fun name => Utf8.encode name.toList

theorem Spells.proper {src : String} {below : List Name} (h : Spells src below) :
    ∀ name ∈ below, name.Proper := by
  obtain ⟨names, hnames, rfl⟩ := h
  intro name hname
  obtain ⟨text, htext, rfl⟩ := List.mem_map.mp hname
  have hname := ExportPath.names_eq_ok hnames text htext
  have hne {chars : List Char} (h : text.toList ≠ chars) :
      Utf8.encode text.toList ≠ Utf8.encode chars := by
    intro heq
    have hdecode := Utf8.decode_encode text.toList
    rw [heq, Utf8.decode_encode] at hdecode
    exact h (Except.ok.inj hdecode).symm
  exact ⟨hne hname.ne_nil, hne hname.ne_dot, hne hname.ne_dots⟩

theorem Spells.unique {src : String} {below below' : List Name} (h : Spells src below)
    (h' : Spells src below') : below = below' := by
  obtain ⟨names, hnames, rfl⟩ := h
  obtain ⟨names', hnames', rfl⟩ := h'
  rw [Except.ok.inj (hnames.symm.trans hnames')]

/-- The place that a path text names an entry of. -/
def Names (e : Export) (t : Tree) (src : String) (place : TreePath) : Prop :=
  ∃ below, Spells src below ∧ FileSystem.Entry t e.caller (e.root ++ below) place

variable {e : Export} {t u : Tree} {base : TreePath} {src : String} {Q : Edit → Prop}

section Programs

variable {α β : Type} {x y : Over Tree α} {f g : α → Over Tree β}

/-- Two programs on two trees have the same outcome and make the same edits, of one kind. -/
abbrev Alike (Q : Edit → Prop) (x y : Over Tree α) (t u : Tree) : Prop :=
  Together Q (fun _ _ => True) x y t u

theorem run_change (report : Fault → Error) (p : Tree → Except Fault Tree) (t : Tree) :
    (change report p).run.run t =
      match p t with
      | .ok t' => (.ok (), t')
      | .error fault => (.error (report fault), t) := by
  show StateT.run (ExceptT.run (match p t with | .ok t => _ | .error e => _)) t = _
  cases p t <;> rfl

theorem run_names (src : String) (t : Tree) : (Export.names src).run.run t =
    ((ExportPath.names src).map (List.map fun name => Utf8.encode name.toList), t) := by
  rw [Export.names]
  cases ExportPath.names src <;> rfl

theorem run_look {f : Tree → Except Fault α} (t : Tree) :
    (look f).run.run t = ((f t).mapError Fault.systemError, t) := by
  have hget : (liftM (get : StateM Tree Tree) : Over Tree Tree).run.run t = (.ok t, t) := rfl
  rw [look, Over.run_bind_of_ok hget]
  cases f t <;> rfl

/-- What a lookup finds. That there is nothing is no failure. -/
def found : Except Fault Node → Except Error (Option Node)
  | .ok node => .ok (some node)
  | .error fault => if fault = .errno .noent then .ok none else .error fault.systemError

theorem run_lookupPath (e : Export) (path : TreePath) (t : Tree) :
    (e.lookupPath path).run.run t = (found (FileSystem.status t e.caller path), t) := by
  show StateT.run (ExceptT.run (match FileSystem.status t e.caller path with
    | .ok node => _ | .error fault => _)) t = _
  cases FileSystem.status t e.caller path with
  | ok node => rfl
  | error fault =>
    dsimp only [found]
    split_ifs <;> rfl

end Programs

theorem status_eq_ok {path : TreePath} {node : Node}
    (h : FileSystem.status t e.caller path = .ok node) :
    ∃ place, FileSystem.locate t e.caller false path = .ok place ∧ t.get? place = some node := by
  rw [FileSystem.status] at h
  cases hplace : FileSystem.locate t e.caller false path with
  | error fault =>
    rw [hplace] at h
    cases h
  | ok place =>
    rw [hplace] at h
    simp only [bind, Except.bind] at h
    cases hnode : t.get? place with
    | none =>
      rw [hnode] at h
      cases h
    | some found =>
      rw [hnode] at h
      cases h
      exact ⟨place, rfl, hnode⟩

section Requests

variable (h : Twins e.caller base t u)
include h

end Requests

end Export

end MetaFs
