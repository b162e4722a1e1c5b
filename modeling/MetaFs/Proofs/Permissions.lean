import Mathlib
import MetaFs.Proofs.Removal
/-! What a missing permission does. A call does for its caller what it does for a privileged one, or
it is denied. Then there is a directory that the caller lacks a permission on, or a sticky one with
an entry in it that is another owner's. -/

namespace MetaFs

/-- The caller that no permission keeps from anything. -/
def Caller.superuser : Caller := {}

theorem Caller.allows_superuser (node : Node) (bits : ℕ) : superuser.allows node bits = true := rfl

/-- All nodes of a tree are nodes of another one, but for the times of their last changes. -/
def Tree.PartOf (t u : Tree) : Prop :=
  ∀ place, (t.get? place).isSome → Kept t u place

namespace Tree.PartOf

variable {t u : Tree} {place : TreePath} {node : Node}

theorem refl (t : Tree) : t.PartOf t :=
  fun _ _ => .of_eq rfl

theorem unlink (h : t.PartOf u) (place : TreePath) : (t.unlink place).PartOf u := by
  intro path hsome
  have hthere := (Edit.kept_apply (.remove place) t path).isSome_eq.symm.trans hsome
  have hne : path ≠ place := by
    rintro rfl
    rw [Edit.change, get?_erase, if_pos rfl] at hthere
    cases hthere
  exact (Edit.kept_unlink hne).symm.trans (h path (isSome_of_isSome_get?_erase hthere))

theorem exists_dated (h : t.PartOf u) (hnode : t.get? place = some node) :
    ∃ time, u.get? place = some (node.dated time) :=
  (h place (Option.isSome_iff_exists.mpr ⟨node, hnode⟩)).exists_dated hnode

theorem isDirectory (h : t.PartOf u) (directory : t.IsDirectory place) : u.IsDirectory place :=
  (h place directory.isSome).isDirectory directory

end Tree.PartOf

namespace FileSystem

open MetaFs.Tree

variable {t u : Tree} {who : Caller} {asks : TreePath → ℕ → Prop} {takes : TreePath → Prop}
  {here place path front parent : TreePath} {name last : Name} {names : List Name}
  {followLast : Bool} {links depth : ℕ} {errno : Errno}

/-- The caller lacks a permission that is asked of a directory. -/
def Lacks (t : Tree) (who : Caller) (asks : TreePath → ℕ → Prop) : Prop :=
  ∃ place node bits, asks place bits ∧ t.get? place = some node ∧ node.kind = .directory ∧
    who.allows node bits = false

/-- An entry that is to be taken is in a sticky directory, and the caller owns neither of them. -/
def Sticks (t : Tree) (who : Caller) (takes : TreePath → Prop) : Prop :=
  ∃ place directory node, takes place ∧ t.get? place.dropLast = some directory ∧
    t.get? place = some node ∧ directory.isSticky = true ∧ who.owns directory = false ∧
    who.owns node = false

/-- What keeps a caller from what a privileged one may do, and the error that tells it. -/
inductive Barred (t : Tree) (who : Caller) (asks : TreePath → ℕ → Prop) (takes : TreePath → Prop) :
    Errno → Prop where
  | lacks (lacks : Lacks t who asks) : Barred t who asks takes .acces
  | sticks (sticks : Sticks t who takes) : Barred t who asks takes .perm

theorem not_barred_of_privileged (privileged : who.privileged = true) :
    ¬Barred t who asks takes errno := by
  intro hbarred
  cases hbarred with
  | lacks hlacks =>
    obtain ⟨place, node, bits, -, -, -, hallows⟩ := hlacks
    rw [Caller.allows, privileged] at hallows
    cases hallows
  | sticks hsticks =>
    obtain ⟨place, directory, node, -, -, -, -, -, howns⟩ := hsticks
    rw [owns_of_privileged privileged] at howns
    cases howns

/-- A denial is not told as a missing object is. -/
theorem Barred.ne_noent (h : Barred t who asks takes errno) :
    Fault.errno errno ≠ .errno .noent := by
  cases h <;> exact fun heq => by cases heq

/-- The outcome of a call is that of a privileged caller, or the call is denied. -/
def Granted {α : Type} (denied : Errno → Prop) (x y : Except Fault α) : Prop :=
  x = y ∨ ∃ errno, denied errno ∧ x = fail errno

namespace Granted

variable {α β : Type} {denied : Errno → Prop} {x y : Except Fault α} {f g : α → Except Fault β}

theorem refl (x : Except Fault α) : Granted denied x x := .inl rfl

theorem bind (h : Granted denied x y) (next : ∀ a, y = .ok a → Granted denied (f a) (g a)) :
    Granted denied (x >>= f) (y >>= g) := by
  rcases h with rfl | ⟨errno, hdenied, rfl⟩
  · cases x with
    | error fault => exact .inl rfl
    | ok a => exact next a rfl
  · exact .inr ⟨errno, hdenied, rfl⟩

/-- What comes after a check that does not depend on the caller. -/
theorem guard {c : Prop} [Decidable c] {e : Errno} {x y : Except Fault α}
    {f : Unit → Except Fault α} (h : ¬c → Granted denied x y) :
    Granted denied (if c then fail e >>= f else x) (if c then fail e >>= f else y) := by
  split_ifs with hc
  · exact refl _
  · exact h hc

/-- What comes after a check that only a caller who is barred fails. -/
theorem permit {c c' : Prop} [Decidable c] [Decidable c'] {e : Errno} {x y : Except Fault α}
    {f : Unit → Except Fault α} (barred : c → denied e) (never : ¬c') (h : Granted denied x y) :
    Granted denied (if c then fail e >>= f else x) (if c' then fail e >>= f else y) := by
  rw [if_neg never]
  split_ifs with hc
  · exact .inr ⟨e, barred hc, rfl⟩
  · exact h

end Granted

section Checks

variable (part : t.PartOf u)
include part

theorem search_granted (hasks : asks place Caller.maySearch) :
    Granted (Barred u who asks takes) (search t who place) (search t .superuser place) := by
  rw [search, search]
  cases hnode : t.get? place with
  | none => exact .refl _
  | some node =>
    dsimp only
    rw [Caller.allows_superuser, if_pos rfl]
    split_ifs with hdirectory hallows
    · exact .refl _
    · exact .refl _
    · rw [Bool.not_eq_true, Bool.not_eq_false', Node.isDirectory, decide_eq_true_eq] at hdirectory
      rw [Bool.not_eq_true] at hallows
      obtain ⟨time, hthere⟩ := part.exists_dated hnode
      exact .inr ⟨_, .lacks ⟨place, _, _, hasks, hthere, hdirectory, hallows⟩, rfl⟩

theorem checkChange_granted (hasks : asks place (Caller.mayWrite + Caller.maySearch))
    (directory : u.IsDirectory place) :
    Granted (Barred u who asks takes) (checkChange t who place)
      (checkChange t .superuser place) := by
  rw [checkChange, checkChange]
  cases hnode : t.get? place with
  | none => exact .refl _
  | some node =>
    dsimp only
    rw [Caller.allows_superuser, if_pos rfl]
    split_ifs with hallows
    · exact .refl _
    · obtain ⟨time, hthere⟩ := part.exists_dated hnode
      rw [isDirectory_iff_of_get? hthere] at directory
      rw [Bool.not_eq_true] at hallows
      exact .inr ⟨_, .lacks ⟨place, _, _, hasks, hthere, of_decide_eq_true directory, hallows⟩, rfl⟩

theorem checkTake_granted (hasks : asks place.dropLast (Caller.mayWrite + Caller.maySearch))
    (htakes : (t.get? place).isSome → takes place) (directory : u.IsDirectory place.dropLast) :
    Granted (Barred u who asks takes) (checkTake t who place) (checkTake t .superuser place) := by
  rw [checkTake, checkTake]
  refine (checkChange_granted part hasks directory).bind fun _ _ => ?_
  cases hparent : t.get? place.dropLast with
  | none => exact .refl _
  | some parent =>
    cases hnode : t.get? place with
    | none => exact .refl _
    | some node =>
      have hnever : ¬(parent.isSticky && !Caller.superuser.owns parent &&
          !Caller.superuser.owns node) = true := by
        rw [owns_of_privileged rfl, Bool.not_true, Bool.and_false]
        exact Bool.false_ne_true
      dsimp only
      rw [if_neg hnever]
      split_ifs with hsticks
      · rw [Bool.and_eq_true, Bool.and_eq_true, Bool.not_eq_true', Bool.not_eq_true'] at hsticks
        obtain ⟨⟨hsticky, hparentOwner⟩, hnodeOwner⟩ := hsticks
        obtain ⟨time, hparentThere⟩ := part.exists_dated hparent
        obtain ⟨time', hnodeThere⟩ := part.exists_dated hnode
        exact .inr ⟨_, .sticks ⟨place, _, _, htakes (by rw [hnode]; rfl), hparentThere, hnodeThere,
          hsticky, hparentOwner, hnodeOwner⟩, rfl⟩
      · exact .refl _

theorem checkTake_child_granted (hasks : asks place (Caller.mayWrite + Caller.maySearch))
    (htakes : (t.get? (place ++ [name])).isSome → takes (place ++ [name]))
    (directory : u.IsDirectory place) :
    Granted (Barred u who asks takes) (checkTake t who (place ++ [name]))
      (checkTake t .superuser (place ++ [name])) := by
  refine checkTake_granted part ?_ htakes ?_
  · rwa [List.dropLast_concat]
  · rwa [List.dropLast_concat]

end Checks

/-! The way along a path. -/

theorem walk_granted :
    (∀ place, Visits t .superuser followLast links here names place → asks place Caller.maySearch) →
      Granted (Barred t who asks takes) (walk t who followLast links here names)
        (walk t .superuser followLast links here names) := by
  -- The induction follows the privileged walk. The other one keeps to it until it is denied.
  induction links, here, names using walk_induction t Caller.superuser followLast with
  | nil links here =>
    intro _
    rw [walk_nil, walk_nil]
    exact .refl _
  | cons links here name rest ih =>
    intro hasks
    rw [walk_cons, walk_cons]
    have hsearch : Granted (Barred t who asks takes) (search t who here)
        (search t .superuser here) :=
      search_granted (.refl t) (hasks here .here)
    rcases hsearch with hsame | ⟨errno, hbarred, hdenied⟩
    · have hturn : turn t who followLast links here name rest =
          turn t .superuser followLast links here name rest := by
        rw [turn, turn, hsame]
      rw [hturn]
      cases hnext : turn t .superuser followLast links here name rest with
      | done result => exact .refl _
      | on links' here' names' =>
        exact ih links' here' names' hnext fun place hvisits => hasks place (.later hnext hvisits)
    · rw [turn, hdenied]
      exact .inr ⟨errno, hbarred, rfl⟩

/-- A path passes such a place on its way to the entry at its end. -/
def Passes (t : Tree) (path place : TreePath) : Prop :=
  ∃ front last, path = front ++ [last] ∧ check path = .ok () ∧
    Visits t .superuser true linkLimit [] front place

/-- The place that a path leads to, without following a link at its end. -/
def resolve (t : Tree) (path : TreePath) : Except Fault TreePath :=
  locate t .superuser false path

section Calls

variable (h : t.WellFormed) (passes : ∀ place, Passes t path place → asks place Caller.maySearch)
include h passes

theorem locateParent_granted :
    Granted (Barred t who asks takes) (locateParent t who path)
      (locateParent t .superuser path) := by
  cases path using List.reverseRecOn with
  | nil => exact .refl _
  | append_singleton front last =>
    rw [locateParent_concat, locateParent_concat]
    refine (Granted.refl _).bind fun _ hcheck => ?_
    have hvisits : ∀ place, Visits t .superuser true linkLimit [] front place →
        asks place Caller.maySearch :=
      fun place hplace => passes place ⟨front, last, rfl, hcheck, hplace⟩
    refine (walk_granted hvisits).bind fun parent hparent => ?_
    refine (search_granted (.refl t) (hvisits parent (visits_end h hparent))).bind fun _ _ => ?_
    exact .refl _

theorem locate_granted (proper : ∀ name ∈ path, name.Proper) :
    Granted (Barred t who asks takes) (locate t who false path) (resolve t path) := by
  cases path using List.reverseRecOn with
  | nil =>
    rw [resolve, locate, locate, walk_nil, walk_nil]
    exact .refl _
  | append_singleton front last =>
    have hlast := proper last (List.mem_append_right front (List.mem_singleton.mpr rfl))
    rw [resolve, locate, locate]
    refine (Granted.refl _).bind fun _ hcheck => ?_
    have hvisits : ∀ place, Visits t .superuser true linkLimit [] front place →
        asks place Caller.maySearch :=
      fun place hplace => passes place ⟨front, last, rfl, hcheck, hplace⟩
    rw [walk_concat hlast.ne_dot hlast.ne_dots, walk_concat hlast.ne_dot hlast.ne_dots]
    refine (walk_granted hvisits).bind fun parent hparent => ?_
    refine (search_granted (.refl t) (hvisits parent (visits_end h hparent))).bind fun _ _ => ?_
    exact .refl _

variable (changes : ∀ parent name, locateParent t .superuser path = .ok (parent, name) →
  asks parent (Caller.mayWrite + Caller.maySearch))
  (taken : ∀ place, Entry t .superuser path place → takes place)
include changes taken

end Calls

/-- A directory that comes to another parent has an entry for it to change. -/
theorem rename_granted {path' : TreePath} (h : t.WellFormed)
    (passes : ∀ place, Passes t path place ∨ Passes t path' place → asks place Caller.maySearch)
    (changes : ∀ parent name, locateParent t .superuser path = .ok (parent, name) ∨
      locateParent t .superuser path' = .ok (parent, name) →
        asks parent (Caller.mayWrite + Caller.maySearch))
    (moves : ∀ old new, Entry t .superuser path old → Entry t .superuser path' new →
      old.dropLast ≠ new.dropLast → asks old Caller.mayWrite)
    (taken : ∀ old, Entry t .superuser path old → takes old)
    (replaced : ∀ new, Entry t .superuser path' new → (t.get? new).isSome → takes new) :
    Granted (Barred t who asks takes) (rename t who path path')
      (rename t .superuser path path') := by
  rw [rename, rename]
  refine (Granted.refl _).bind fun _ _ => ?_
  refine (Granted.refl _).bind fun _ _ => ?_
  refine (locateParent_granted h fun place hplace => passes place (.inl hplace)).bind
    fun found hfound => ?_
  obtain ⟨oldParent, oldName⟩ := found
  refine (locateParent_granted h fun place hplace => passes place (.inr hplace)).bind
    fun found' hfound' => ?_
  obtain ⟨newParent, newName⟩ := found'
  obtain ⟨-, -, -, -, hsearch⟩ := locateParent_eq_ok hfound
  obtain ⟨-, -, -, -, hsearch'⟩ := locateParent_eq_ok hfound'
  refine (Granted.refl _).bind fun _ hname => ?_
  have hentry : Entry t .superuser path (oldParent ++ [oldName]) :=
    ⟨oldParent, oldName, hfound, hname, rfl⟩
  dsimp only
  cases hnode : t.get? (oldParent ++ [oldName]) with
  | none => exact .refl _
  | some node =>
    refine (Granted.refl _).bind fun _ hname' => ?_
    have hentry' : Entry t .superuser path' (newParent ++ [newName]) :=
      ⟨newParent, newName, hfound', hname', rfl⟩
    refine Granted.guard fun _ => Granted.guard fun _ => ?_
    by_cases heq : oldParent ++ [oldName] = newParent ++ [newName]
    · rw [if_pos heq, if_pos heq]
      exact .refl _
    rw [if_neg heq, if_neg heq]
    -- What the callers have been told apart by so far is the way. From here on it is the change.
    have htake : Granted (Barred t who asks takes) (checkTake t who (oldParent ++ [oldName]))
        (checkTake t .superuser (oldParent ++ [oldName])) :=
      checkTake_child_granted (.refl t) (changes oldParent oldName (.inl hfound))
        (fun _ => taken _ hentry) (isDirectory_of_search hsearch)
    have htake' : Granted (Barred t who asks takes) (checkTake t who (newParent ++ [newName]))
        (checkTake t .superuser (newParent ++ [newName])) :=
      checkTake_child_granted (.refl t) (changes newParent newName (.inr hfound'))
        (replaced _ hentry') (isDirectory_of_search hsearch')
    refine htake.bind fun _ _ => htake'.bind fun _ _ => ?_
    have hdenied : (node.isDirectory && oldParent != newParent &&
        !who.allows node Caller.mayWrite) = true → Barred t who asks takes .acces := by
      intro hmoves
      rw [Bool.and_eq_true, Bool.and_eq_true, Bool.not_eq_true', bne_iff_ne] at hmoves
      obtain ⟨⟨hdirectory, hparents⟩, hallows⟩ := hmoves
      have hasks : asks (oldParent ++ [oldName]) Caller.mayWrite := by
        apply moves _ _ hentry hentry'
        rwa [List.dropLast_concat, List.dropLast_concat]
      exact .lacks ⟨_, node, _, hasks, hnode, of_decide_eq_true hdirectory, hallows⟩
    have hnever : ¬(node.isDirectory && oldParent != newParent &&
        !Caller.superuser.allows node Caller.mayWrite) = true := by
      rw [Caller.allows_superuser, Bool.not_true, Bool.and_false]
      exact Bool.false_ne_true
    cases t.get? (newParent ++ [newName]) with
    | none => exact .permit hdenied hnever (.refl _)
    | some other => exact .guard fun _ => .guard fun _ => .permit hdenied hnever (.refl _)

/-! Removal. -/

/-- A program on a part of a tree does for its caller what it does for a privileged one, or it is
denied. What it leaves is a part of the tree as well. -/
def Grants {α : Type} (denied : Errno → Prop) (u : Tree) (x y : Change α) (t : Tree) : Prop :=
  (x.run.run t = y.run.run t ∨
    ∃ errno, denied errno ∧ (x.run.run t).1 = .error (.errno errno)) ∧
    (y.run.run t).2.PartOf u

namespace Grants

variable {α β : Type} {denied : Errno → Prop} {x y : Change α} {f g : α → Change β}

theorem pure (part : t.PartOf u) (a : α) : Grants denied u (Pure.pure a) (Pure.pure a) t :=
  ⟨.inl rfl, part⟩

theorem unlink (part : t.PartOf u) (place : TreePath) :
    Grants denied u (modify (·.unlink place)) (modify (·.unlink place)) t :=
  ⟨.inl rfl, part.unlink place⟩

theorem bind (h : Grants denied u x y t)
    (next : ∀ a v, v.PartOf u → Grants denied u (f a) (g a) v) :
    Grants denied u (x >>= f) (y >>= g) t := by
  obtain ⟨hrun, hpart⟩ := h
  rw [Grants, ExceptT.run_bind, ExceptT.run_bind, StateT.run_bind, StateT.run_bind]
  generalize hy : y.run.run t = outcome at hrun hpart
  obtain ⟨result, v⟩ := outcome
  rcases hrun with hsame | ⟨errno, hbarred, hdenied⟩
  · rw [hsame]
    cases result with
    | error fault => exact ⟨.inl rfl, hpart⟩
    | ok a => exact next a v hpart
  · generalize x.run.run t = outcome at hdenied
    obtain ⟨result', v'⟩ := outcome
    dsimp only at hdenied
    subst hdenied
    refine ⟨.inr ⟨errno, hbarred, rfl⟩, ?_⟩
    cases result with
    | error fault => exact hpart
    | ok a => exact (next a v hpart).2

theorem get {f g : Tree → Change β} (h : Grants denied u (f t) (g t) t) :
    Grants denied u (liftM (MonadState.get : StateM Tree Tree) >>= f)
      (liftM (MonadState.get : StateM Tree Tree) >>= g) t := h

theorem check {a b : Except Fault α} (h : Granted denied a b) (part : t.PartOf u)
    (next : ∀ c, b = .ok c → Grants denied u (f c) (g c) t) :
    Grants denied u (ofExcept a >>= f) (ofExcept b >>= g) t := by
  rcases h with rfl | ⟨errno, hbarred, rfl⟩
  · cases a with
    | error fault => exact ⟨.inl rfl, part⟩
    | ok c => exact next c rfl
  · refine ⟨.inr ⟨errno, hbarred, rfl⟩, ?_⟩
    cases b with
    | error fault => exact part
    | ok c => exact (next c rfl).2

end Grants

/-- All that the removal of what is at a place may ask for and take. -/
structure Clears (asks : TreePath → ℕ → Prop) (takes : TreePath → Prop) (place : TreePath) :
    Prop where
  read : ∀ path, place <+: path → asks path Caller.mayRead
  search : ∀ path, place <+: path → asks path Caller.maySearch
  change : ∀ path, place <+: path → asks path (Caller.mayWrite + Caller.maySearch)
  take : ∀ path, place <+: path → takes path

theorem Clears.of_isPrefix {top : TreePath} (h : Clears asks takes top) (hbegins : top <+: place) :
    Clears asks takes place where
  read path hpath := h.read path (hbegins.trans hpath)
  search path hpath := h.search path (hbegins.trans hpath)
  change path hpath := h.change path (hbegins.trans hpath)
  take path hpath := h.take path (hbegins.trans hpath)

section Removal

variable {remove remove' : TreePath → Change Unit}

end Removal

end FileSystem

end MetaFs
