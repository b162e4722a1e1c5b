import Mathlib
import MetaFs.Proofs.ServedExports
/-! What comes of making directories one below the other. Whether anything is in the way, and
whether a parent is missing, shows before the first directory is made. -/

namespace MetaFs

/-- What keeps a call from a path whatever is there: the path itself is refused, or a permission is
missing. -/
inductive Fault.Hinders : Fault → Prop where
  | zeroByte : Hinders .zeroByte
  | nametoolong : Hinders (.errno .nametoolong)
  | acces : Hinders (.errno .acces)

namespace FileSystem

open MetaFs.Tree

variable {t u : Tree} {who : Caller} {front path place above : TreePath} {name : Name}

theorem Accepts.of_isPrefix (h : Accepts path) (hbegins : front <+: path) : Accepts front := by
  obtain ⟨rest, rfl⟩ := hbegins
  induction rest using List.reverseRecOn with
  | nil => rwa [List.append_nil] at h
  | append_singleton rest last ih =>
    apply ih
    rw [← List.append_assoc] at h
    exact ⟨check_of_concat h.fits, fun name hname => h.plain name (List.mem_append_left _ hname)⟩

/-- Only directories are on the way to a directory. -/
theorem straight_of_isDirectory (h : t.WellFormed) (directory : t.IsDirectory place) :
    Straight t place := by
  intro path node target hbegins hnode
  obtain ⟨found, hfound, hkind⟩ := Export.isDirectory_of_above h directory hbegins
  rw [hnode] at hfound
  obtain rfl := Option.some.inj hfound
  rw [hkind]
  exact NodeKind.noConfusion

theorem Clear.of_isPrefix (h : Clear t who place) (hbegins : front <+: place) :
    Clear t who front := by
  intro path hpath hne directory
  apply h path (hpath.trans hbegins) _ directory
  rintro rfl
  exact hne (hpath.eq_of_length_le hbegins.length_le)

/-- The node of a new directory. -/
structure Fresh (who : Caller) (mode : ℕ) (node : Node) : Prop where
  kind : node.kind = .directory
  mode : node.mode = mode % 0o10000
  owner : node.uid = who.uid

theorem Fresh.dated {mode : ℕ} {node : Node} (h : Fresh who mode node) (time : Moment) :
    Fresh who mode (node.dated time) :=
  ⟨h.kind, h.mode, h.owner⟩

section Child

variable (h : t.WellFormed) (directory : t.IsDirectory above)
include h directory

theorem walk_of_clear (clear : Clear t who above) :
    walk t who true linkLimit [] above = .ok above := by
  have htop : t.IsDirectory [] := Export.isDirectory_of_above h directory List.nil_prefix
  have hleads : LeadsTo t ([] ++ above) (walk t who true linkLimit [] above) :=
    leadsTo_walk h htop (h.plain above directory.isSome) (straight_of_isDirectory h directory) clear
  rw [List.nil_append] at hleads
  generalize walk t who true linkLimit [] above = result at hleads
  cases hleads with
  | there => rfl
  | missing absent => exact absurd absent (Option.isSome_iff_ne_none.mp directory.isSome)
  | blocked absent => exact absurd absent (Option.isSome_iff_ne_none.mp directory.isSome)

/-- Below a directory a path leads straight to the entry. -/
theorem locateParent_of_clear (accepts : Accepts (above ++ [name]))
    (clear : Clear t who (above ++ [name])) :
    locateParent t who (above ++ [name]) = .ok (above, name) := by
  have hsearch := clear above (List.prefix_append above [name]) (below_concat above name).2.symm
    directory
  rw [locateParent_concat, accepts.fits,
    walk_of_clear h directory (clear.of_isPrefix (List.prefix_append above [name]))]
  simp only [bind, Except.bind]
  rw [hsearch]
  rfl

theorem entry_of_clear (accepts : Accepts (above ++ [name]))
    (clear : Clear t who (above ++ [name])) :
    Entry t who (above ++ [name]) (above ++ [name]) := by
  have hplain := accepts.plain name (List.mem_append_right above (List.mem_singleton.mpr rfl))
  exact ⟨above, name, locateParent_of_clear h directory accepts clear,
    if_neg (Nat.not_lt.mpr hplain.length_le), rfl⟩

/-- If a path does not lead to the entry, something hinders the call. -/
theorem status_of_hindered (proper : name.Proper)
    (hnot : Accepts (above ++ [name]) → ¬Clear t who (above ++ [name])) :
    ∃ fault, fault.Hinders ∧ status t who (above ++ [name]) = .error fault := by
  by_cases accepts : Accepts (above ++ [name])
  · exact ⟨_, .acces, status_of_not_clear h accepts (hnot accepts)⟩
  rw [status, locate]
  cases hcheck : check (above ++ [name]) with
  | error fault =>
    refine ⟨fault, ?_, rfl⟩
    rw [check] at hcheck
    split_ifs at hcheck
    · cases hcheck
      exact .zeroByte
    · cases hcheck
      exact .nametoolong
  | ok _ =>
    -- All other names are names of the tree, so that it is the last one that is too long.
    have hlong : nameLimit < name.length := by
      by_contra hle
      refine accepts ⟨hcheck, fun other hother => ?_⟩
      rcases List.mem_append.mp hother with hmem | hmem
      · exact h.plain above directory.isSome other hmem
      · rw [List.mem_singleton.mp hmem]
        exact ⟨proper, Nat.not_lt.mp hle⟩
    have hwalk : ∃ fault, Fault.Hinders fault ∧
        walk t who false linkLimit [] (above ++ [name]) = .error fault := by
      rw [walk_concat proper.ne_dot proper.ne_dots]
      by_cases clear : Clear t who above
      · rw [walk_of_clear h directory clear]
        show ∃ fault, _ ∧ enter t who above name = _
        rw [enter, checkName, if_pos hlong]
        rcases search_of_isDirectory who directory with hsearch | hsearch
        · rw [hsearch]
          exact ⟨_, .nametoolong, rfl⟩
        · rw [hsearch]
          exact ⟨_, .acces, rfl⟩
      · obtain ⟨front, hbegins, hne, hfront, hsearch⟩ := exists_barred clear
        have hbarred : walk t who true linkLimit [] above = fail .acces :=
          walk_of_barred h (h.plain above directory.isSome) List.nil_prefix hbegins hne hfront
            hsearch
        rw [hbarred]
        exact ⟨_, .acces, rfl⟩
    obtain ⟨fault, hhinders, hwalk⟩ := hwalk
    refine ⟨fault, hhinders, ?_⟩
    simp only [bind, Except.bind]
    rw [hwalk]

theorem makeDirectory_of_clear (mode : ℕ) (accepts : Accepts (above ++ [name]))
    (clear : Clear t who (above ++ [name])) (free : t.get? (above ++ [name]) = none) :
    (∃ node, Fresh who mode node ∧
      makeDirectory t who (above ++ [name]) mode = .ok (t.link (above ++ [name]) node)) ∨
      who.privileged = false ∧ makeDirectory t who (above ++ [name]) mode = fail .acces := by
  have hplain := accepts.plain name (List.mem_append_right above (List.mem_singleton.mpr rfl))
  rw [makeDirectory, locateParent_of_clear h directory accepts clear]
  simp only [bind, Except.bind]
  rw [checkName, if_neg (Nat.not_lt.mpr hplain.length_le)]
  dsimp only
  rw [free, if_neg (by exact Bool.false_ne_true)]
  obtain ⟨node, hnode, -⟩ := directory
  rw [checkChange, hnode]
  dsimp only
  by_cases hallows : who.allows node (Caller.mayWrite + Caller.maySearch) = true
  · rw [if_pos hallows]
    exact .inl ⟨_, ⟨rfl, rfl, rfl⟩, rfl⟩
  · rw [if_neg hallows]
    refine .inr ⟨?_, rfl⟩
    rw [Caller.allows, Bool.or_eq_true, not_or] at hallows
    exact Bool.not_eq_true _ ▸ hallows.1

end Child

end FileSystem

namespace Export

open MetaFs.Tree

/-- An entry on the way down is no directory. -/
def Obstructed (t : Tree) (above : TreePath) (names : List Name) : Prop :=
  ∃ front node, front <+: names ∧ t.get? (above ++ front) = some node ∧ node.kind ≠ .directory

/-- A directory on the way down is missing that something else is to be made in. -/
def Orphaned (t : Tree) (above : TreePath) (names : List Name) : Prop :=
  ∃ front, front <+: names ∧ front ≠ names ∧ t.get? (above ++ front) = none

instance (t : Tree) (above : TreePath) (names : List Name) : Decidable (Obstructed t above names) :=
  decidable_of_iff
      (∃ front ∈ names.inits, (t.get? (above ++ front)).any (!·.isDirectory) = true) <| by
    simp only [List.mem_inits, Option.any_eq_true, Node.isDirectory, Bool.not_eq_true',
      decide_eq_false_iff_not, Obstructed]
    constructor
    · rintro ⟨front, hbegins, node, hnode⟩
      exact ⟨front, node, hbegins, hnode⟩
    · rintro ⟨front, node, hbegins, hnode⟩
      exact ⟨front, hbegins, node, hnode⟩

instance (t : Tree) (above : TreePath) (names : List Name) : Decidable (Orphaned t above names) :=
  decidable_of_iff (∃ front ∈ names.inits, front ≠ names ∧ t.get? (above ++ front) = none) <| by
    simp only [List.mem_inits, Orphaned]

/-- The same tree with all directories on the way down. A directory may have another time of its
last change where one has been made in it. -/
structure Completes (who : Caller) (mode : ℕ) (t u : Tree) (above : TreePath) (names : List Name) :
    Prop where
  kept : ∀ place, (t.get? place).isSome → Kept t u place
  undated : ∀ place, (t.get? place).isSome →
    (∀ name, t.get? (place ++ [name]) = none → u.get? (place ++ [name]) = none) →
      u.get? place = t.get? place
  made : ∀ place, t.get? place = none → above <+: place → place <+: above ++ names →
    ∃ node, u.get? place = some node ∧ FileSystem.Fresh who mode node
  rest : ∀ place, t.get? place = none → ¬(above <+: place ∧ place <+: above ++ names) →
    u.get? place = none

variable {e : Export} {t u : Tree} {src : String} {above : TreePath} {name : Name}
  {names rest below : List Name} {mode : ℕ} {createParent : Bool} {made : Node} {who : Caller}

/-- What comes of making the directories on the way down: the outcome and the tree afterwards. -/
inductive Attempt (e : Export) (src : String) (mode : ℕ) (createParent : Bool) (t : Tree)
    (above : TreePath) (names : List Name) : Except Error Bool × Tree → Prop where
  | hindered {fault : Fault} {u : Tree} (hinders : fault.Hinders)
      (cause : e.caller.privileged = true → ¬FileSystem.Accepts (above ++ names)) :
      Attempt e src mode createParent t above names (.error fault.systemError, u)
  | obstructed (obstructed : Obstructed t above names) :
      Attempt e src mode createParent t above names (.ok false, t)
  | orphaned (free : ¬Obstructed t above names) (alone : createParent = false)
      (orphaned : Orphaned t above names) : Attempt e src mode createParent t above names
        (.error ⟨.noent, s!"{src}: parent does not exist", none⟩, t)
  | made {u : Tree} (wellFormed : u.WellFormed) (free : ¬Obstructed t above names)
      (housed : createParent = false → ¬Orphaned t above names)
      (completes : Completes e.caller mode t u above names)
      (passed : names ≠ [] → FileSystem.Accepts (above ++ names) ∧
        FileSystem.Clear u e.caller (above ++ names)) :
      Attempt e src mode createParent t above names (.ok true, u)

theorem obstructed_cons (directory : t.IsDirectory above) :
    Obstructed t above (name :: rest) ↔ Obstructed t (above ++ [name]) rest := by
  constructor
  · intro h
    obtain ⟨front, node, hbegins, hnode, hkind⟩ := h
    rcases List.prefix_cons_iff.mp hbegins with rfl | ⟨front, rfl, hfront⟩
    · obtain ⟨found, hfound, hdirectory⟩ := directory
      rw [List.append_nil, hfound] at hnode
      obtain rfl := Option.some.inj hnode
      exact absurd hdirectory hkind
    · rw [FileSystem.cons_eq_append] at hnode
      exact ⟨front, node, hfront, hnode, hkind⟩
  · intro h
    obtain ⟨front, node, hbegins, hnode, hkind⟩ := h
    rw [← FileSystem.cons_eq_append] at hnode
    exact ⟨name :: front, node, List.cons_prefix_cons.mpr ⟨rfl, hbegins⟩, hnode, hkind⟩

theorem orphaned_cons (directory : t.IsDirectory above) :
    Orphaned t above (name :: rest) ↔ Orphaned t (above ++ [name]) rest := by
  constructor
  · intro h
    obtain ⟨front, hbegins, hne, hnone⟩ := h
    rcases List.prefix_cons_iff.mp hbegins with rfl | ⟨front, rfl, hfront⟩
    · rw [List.append_nil] at hnone
      exact absurd hnone (Option.isSome_iff_ne_none.mp directory.isSome)
    · rw [FileSystem.cons_eq_append] at hnone
      refine ⟨front, hfront, ?_, hnone⟩
      rintro rfl
      exact hne rfl
  · intro h
    obtain ⟨front, hbegins, hne, hnone⟩ := h
    rw [← FileSystem.cons_eq_append] at hnone
    refine ⟨name :: front, List.cons_prefix_cons.mpr ⟨rfl, hbegins⟩, ?_, hnone⟩
    intro heq
    exact hne (List.cons.inj heq).2

theorem not_obstructed_of_none (h : t.WellFormed) (free : t.get? above = none) (names : List Name) :
    ¬Obstructed t above names := by
  intro hobstructed
  obtain ⟨front, node, -, hnode, -⟩ := hobstructed
  have hsome := h.isSome_of_isPrefix (Option.isSome_iff_exists.mpr ⟨node, hnode⟩)
    (List.prefix_append above front)
  rw [free] at hsome
  cases hsome

theorem not_orphaned_nil : ¬Orphaned t above [] := by
  intro h
  obtain ⟨front, hbegins, hne, -⟩ := h
  exact hne (List.prefix_nil.mp hbegins)

theorem Completes.nil (directory : t.IsDirectory above) : Completes who mode t t above [] := by
  refine ⟨fun _ _ => .of_eq rfl, fun _ _ _ => rfl, fun place hnone hbegins hends => ?_,
    fun _ hnone _ => hnone⟩
  rw [List.append_nil] at hends
  rw [hends.eq_of_length_le hbegins.length_le] at hnone
  exact absurd hnone (Option.isSome_iff_ne_none.mp directory.isSome)

/-- A place that is new on the way down is past a directory that was there. -/
theorem isPrefix_concat_of_none (directory : t.IsDirectory above) {place : TreePath}
    (hnone : t.get? place = none) (hbegins : above <+: place)
    (hends : place <+: above ++ name :: rest) : above ++ [name] <+: place := by
  obtain ⟨more, rfl⟩ := hbegins
  rcases List.prefix_cons_iff.mp ((List.prefix_append_right_inj above).mp hends) with
    rfl | ⟨more, rfl, -⟩
  · rw [List.append_nil] at hnone
    exact absurd hnone (Option.isSome_iff_ne_none.mp directory.isSome)
  · rw [FileSystem.cons_eq_append above name more]
    exact List.prefix_append _ more

theorem Completes.cons (directory : t.IsDirectory above)
    (h : Completes who mode t u (above ++ [name]) rest) :
    Completes who mode t u above (name :: rest) := by
  refine ⟨h.kept, h.undated, fun place hnone hbegins hends => ?_, fun place hnone hout => ?_⟩
  · have hpast := isPrefix_concat_of_none directory hnone hbegins hends
    rw [FileSystem.cons_eq_append] at hends
    exact h.made place hnone hpast hends
  · apply h.rest place hnone
    intro hline
    rw [← FileSystem.cons_eq_append] at hline
    exact hout ⟨(List.prefix_append above [name]).trans hline.1, hline.2⟩

/-- A directory that is made first is one of those that are made. -/
theorem Completes.of_link (free : t.get? (above ++ [name]) = none)
    (fresh : FileSystem.Fresh who mode made)
    (h : Completes who mode (t.link (above ++ [name]) made) u (above ++ [name]) names) :
    Completes who mode t u (above ++ [name]) names := by
  have hlinked := Edit.get?_link_self (t := t) above name made
  have hne {place : TreePath} (hsome : (t.get? place).isSome) : place ≠ above ++ [name] := by
    rintro rfl
    exact Option.isSome_iff_ne_none.mp hsome free
  have hthere {place : TreePath} (hsome : (t.get? place).isSome) :
      ((t.link (above ++ [name]) made).get? place).isSome :=
    (Edit.kept_link made (hne hsome)).isSome_eq.trans hsome
  have hnew : ∃ node, u.get? (above ++ [name]) = some node ∧ FileSystem.Fresh who mode node := by
    obtain ⟨time, hnode⟩ := (h.kept _ (by rw [hlinked]; rfl)).exists_dated hlinked
    exact ⟨_, hnode, fresh.dated time⟩
  have habsent {place : TreePath} (hplace : place ≠ above ++ [name]) (hnone : t.get? place = none) :
      (t.link (above ++ [name]) made).get? place = none :=
    (Edit.kept_link made hplace).eq_none hnone
  refine ⟨fun place hsome => ?_, fun place hsome hempty => ?_, fun place hnone hbegins hends => ?_,
    fun place hnone hout => ?_⟩
  · exact (Edit.kept_link made (hne hsome)).trans (h.kept place (hthere hsome))
  · have hplace : place ≠ above := by
      rintro rfl
      obtain ⟨node, hnode, -⟩ := hnew
      rw [hempty name free] at hnode
      cases hnode
    have hsame : (t.link (above ++ [name]) made).get? place = t.get? place := by
      refine (Edit.get?_apply_of_not_mem (.add (above ++ [name]) made) ?_).trans ?_
      · rwa [Edit.parents, List.mem_singleton, List.dropLast_concat]
      · rw [Edit.change, get?_put, if_neg (hne hsome)]
    rw [h.undated place (hthere hsome), hsame]
    intro other hnone
    by_contra hsome'
    have hother := hempty other
    by_cases hthis : place ++ [other] = above ++ [name]
    · exact hplace (List.append_inj' hthis rfl).1
    · refine hsome' (hother ?_)
      exact (Edit.kept_link made hthis).symm.eq_none hnone
  · by_cases hplace : place = above ++ [name]
    · rw [hplace]
      exact hnew
    · exact h.made place (habsent hplace hnone) hbegins hends
  · have hplace : place ≠ above ++ [name] := by
      rintro rfl
      exact hout ⟨List.prefix_rfl, List.prefix_append _ names⟩
    exact h.rest place (habsent hplace hnone) hout

/-- The directories that were there may be searched as before. -/
theorem Completes.clear {place : TreePath} (h : Completes who mode t u above names)
    (ht : t.WellFormed) (directory : t.IsDirectory place)
    (clear : FileSystem.Clear t who (place ++ [name])) :
    FileSystem.Clear u who (place ++ [name]) := by
  intro path hbegins hne _
  have hpath : path <+: place := (List.prefix_concat_iff.mp hbegins).resolve_left hne
  have hdirectory := isDirectory_of_above ht directory hpath
  rw [(h.kept path hdirectory.isSome).search_eq]
  exact clear path hbegins hne hdirectory

variable {result : Except Error Bool × Tree}

/-- A directory on the way down that is there. -/
theorem Attempt.cons (h : t.WellFormed) (directory : t.IsDirectory above)
    (accepts : FileSystem.Accepts (above ++ [name]))
    (clear : FileSystem.Clear t e.caller (above ++ [name]))
    (attempt : Attempt e src mode createParent t (above ++ [name]) rest result) :
    Attempt e src mode createParent t above (name :: rest) result := by
  cases attempt with
  | hindered hinders cause =>
    rw [← FileSystem.cons_eq_append] at cause
    exact .hindered hinders cause
  | obstructed obstructed => exact .obstructed ((obstructed_cons directory).mpr obstructed)
  | orphaned free alone orphaned =>
    exact .orphaned (mt (obstructed_cons directory).mp free) alone
      ((orphaned_cons directory).mpr orphaned)
  | made hu free housed completes passed =>
    refine .made hu (mt (obstructed_cons directory).mp free) ?_ (completes.cons directory)
      fun _ => ?_
    · intro alone orphaned
      exact housed alone ((orphaned_cons directory).mp orphaned)
    · rw [FileSystem.cons_eq_append]
      by_cases hrest : rest = []
      · rw [hrest, List.append_nil]
        exact ⟨accepts, completes.clear h directory clear⟩
      · exact passed hrest

/-- Nothing is in a new directory. -/
theorem not_obstructed_link (h : t.WellFormed) (free : t.get? (above ++ [name]) = none)
    (directory : made.kind = .directory) (names : List Name) :
    ¬Obstructed (t.link (above ++ [name]) made) (above ++ [name]) names := by
  intro hobstructed
  obtain ⟨front, node, hbegins, hnode, hkind⟩ := hobstructed
  by_cases hfront : front = []
  · rw [hfront, List.append_nil, Edit.get?_link_self] at hnode
    obtain rfl := Option.some.inj hnode
    exact hkind directory
  · have hne : above ++ [name] ++ front ≠ above ++ [name] := by
      intro heq
      exact hfront (List.append_right_eq_self.mp heq)
    obtain ⟨time, hthere⟩ := (Edit.kept_link made hne).symm.exists_dated hnode
    exact not_obstructed_of_none h free names ⟨front, _, hbegins, hthere, hkind⟩

/-- A directory on the way down that is made. -/
theorem Attempt.of_link (h : t.WellFormed) (free : t.get? (above ++ [name]) = none)
    (fresh : FileSystem.Fresh e.caller mode made) (last : createParent = false → names = [])
    (attempt : Attempt e src mode createParent (t.link (above ++ [name]) made) (above ++ [name])
      names result) : Attempt e src mode createParent t (above ++ [name]) names result := by
  cases attempt with
  | hindered hinders cause => exact .hindered hinders cause
  | obstructed obstructed =>
    exact absurd obstructed (not_obstructed_link h free fresh.kind names)
  | orphaned _ alone orphaned =>
    rw [last alone] at orphaned
    exact absurd orphaned not_orphaned_nil
  | made hu _ _ completes passed =>
    refine .made hu (not_obstructed_of_none h free names) ?_ (completes.of_link free fresh) passed
    intro alone
    rw [last alone]
    exact not_orphaned_nil

section Child

variable (h : t.WellFormed) (directory : t.IsDirectory above)
include h directory

/-- A directory that is missing is made, unless others are missing as well that are not to be. -/
theorem attempt_missing (accepts : FileSystem.Accepts (above ++ [name]))
    (clear : FileSystem.Clear t e.caller (above ++ [name]))
    (free : t.get? (above ++ [name]) = none) {next : Over Tree Bool}
    (hnext : ∀ u, u.WellFormed → u.IsDirectory (above ++ [name]) →
      Attempt e src mode createParent u (above ++ [name]) rest (next.run.run u)) :
    Attempt e src mode createParent t above (name :: rest) ((do
      if !createParent && !rest.isEmpty then refuse .noent s!"{src}: parent does not exist"
      change Fault.systemError (FileSystem.makeDirectory · e.caller (above ++ [name]) mode)
      next : Over Tree Bool).run.run t) := by
  have hfree : ¬Obstructed t above (name :: rest) := by
    rw [obstructed_cons directory]
    exact not_obstructed_of_none h free rest
  split_ifs with hstop
  · rw [Bool.and_eq_true, Bool.not_eq_true', Bool.not_eq_true', List.isEmpty_eq_false_iff] at hstop
    refine .orphaned hfree hstop.1 ⟨[name], List.prefix_append [name] rest, ?_, free⟩
    intro heq
    exact hstop.2 (List.cons.inj heq).2.symm
  have hlast : createParent = false → rest = [] := by
    intro alone
    rwa [alone, Bool.not_false, Bool.true_and, Bool.not_eq_true, Bool.not_eq_false',
      List.isEmpty_iff] at hstop
  rcases FileSystem.makeDirectory_of_clear h directory mode accepts clear free with
    ⟨node, fresh, hmake⟩ | ⟨hprivileged, hmake⟩
  · have hplain := accepts.plain name (List.mem_append_right above (List.mem_singleton.mpr rfl))
    have hfits : Edit.Fits t (.add (above ++ [name]) node) :=
      .add hplain directory free fresh.kind
    have hmade := hnext _ (hfits.wellFormed h)
      ⟨node, Edit.get?_link_self above name node, fresh.kind⟩
    rw [Over.run_bind_of_ok (run_change_of_ok hmake)]
    exact (hmade.of_link h free fresh hlast).cons h directory accepts clear
  · have hchange := run_change Fault.systemError
      (FileSystem.makeDirectory · e.caller (above ++ [name]) mode) t
    rw [hmake] at hchange
    rw [Over.run_bind_of_error hchange]
    refine .hindered .acces fun htrue => ?_
    rw [hprivileged] at htrue
    cases htrue

theorem run_lookupPath_of_clear (accepts : FileSystem.Accepts (above ++ [name]))
    (clear : FileSystem.Clear t e.caller (above ++ [name])) :
    (e.lookupPath (above ++ [name])).run.run t = (.ok (t.get? (above ++ [name])), t) := by
  rw [run_lookupPath, FileSystem.status_of_entry
    (fun other hother => (accepts.plain other hother).toProper)
    (FileSystem.entry_of_clear h directory accepts clear)]
  cases t.get? (above ++ [name]) <;> rfl

/-- One step down: it is hindered, or it looks at the entry that the name leads to. -/
theorem cases_lookup (proper : name.Proper) :
    (∃ fault : Fault, fault.Hinders ∧
      (e.lookupPath (above ++ [name])).run.run t = (.error fault.systemError, t) ∧
      (e.caller.privileged = true → ¬FileSystem.Accepts (above ++ [name]))) ∨
    FileSystem.Accepts (above ++ [name]) ∧ FileSystem.Clear t e.caller (above ++ [name]) ∧
      (e.lookupPath (above ++ [name])).run.run t = (.ok (t.get? (above ++ [name])), t) := by
  by_cases hpass : FileSystem.Accepts (above ++ [name]) ∧
      FileSystem.Clear t e.caller (above ++ [name])
  · obtain ⟨accepts, clear⟩ := hpass
    exact .inr ⟨accepts, clear, run_lookupPath_of_clear h directory accepts clear⟩
  · obtain ⟨fault, hhinders, hstatus⟩ : ∃ fault : Fault, fault.Hinders ∧
        FileSystem.status t e.caller (above ++ [name]) = .error fault :=
      FileSystem.status_of_hindered h directory proper fun accepts clear => hpass ⟨accepts, clear⟩
    refine .inl ⟨fault, hhinders, ?_, fun hprivileged accepts => ?_⟩
    · rw [run_lookupPath, hstatus, found, if_neg]
      rintro rfl
      cases hhinders
    · exact hpass ⟨accepts, FileSystem.clear_of_privileged hprivileged _⟩

end Child

/-- On the way down nothing is made before it is known what is in the way: below a directory that is
made there is nothing. -/
theorem attempt_makeAll (h : t.WellFormed) (directory : t.IsDirectory above)
    (proper : ∀ name ∈ names, name.Proper) :
    Attempt e src mode createParent t above names
      ((e.makeAll src mode createParent above names).run.run t) := by
  -- On the names that are left, for every directory above them and every tree: one may have been
  -- made by then.
  induction names generalizing t above with
  | nil =>
    refine .made h ?_ (fun _ => not_orphaned_nil) (.nil directory) fun hne => absurd rfl hne
    intro hobstructed
    obtain ⟨front, node, hbegins, hnode, hkind⟩ := hobstructed
    obtain ⟨found, hfound, hdirectory⟩ := directory
    rw [List.prefix_nil.mp hbegins, List.append_nil, hfound] at hnode
    obtain rfl := Option.some.inj hnode
    exact hkind hdirectory
  | cons name rest ih =>
    obtain ⟨hname, hrest⟩ := List.forall_mem_cons.mp proper
    rw [makeAll]
    rcases cases_lookup (e := e) h directory hname with
      ⟨fault, hhinders, hlookup, hcause⟩ | ⟨accepts, clear, hlookup⟩
    · rw [Over.run_bind_of_error hlookup]
      refine .hindered hhinders fun hprivileged accepts => hcause hprivileged ?_
      rw [FileSystem.cons_eq_append] at accepts
      exact accepts.of_isPrefix (List.prefix_append _ rest)
    rw [Over.run_bind_of_ok hlookup]
    cases hnode : t.get? (above ++ [name]) with
    | none =>
      exact attempt_missing h directory accepts clear hnode fun u hu hthere => ih hu hthere hrest
    | some node =>
      dsimp only
      split_ifs with hdirectory
      · have hthere : t.IsDirectory (above ++ [name]) :=
          ⟨node, hnode, of_decide_eq_true hdirectory⟩
        exact (ih h hthere hrest).cons h directory accepts clear
      · refine .obstructed ⟨[name], node, List.prefix_append [name] rest, hnode, ?_⟩
        exact fun hkind => hdirectory (decide_eq_true hkind)

/-- Where all directories are there already, nothing is made. -/
theorem run_makeAll_of_directories (h : t.WellFormed)
    (directories : ∀ front, front <+: names → t.IsDirectory (above ++ front))
    (passed : names ≠ [] → FileSystem.Accepts (above ++ names) ∧
      FileSystem.Clear t e.caller (above ++ names)) :
    (e.makeAll src mode createParent above names).run.run t = (.ok true, t) := by
  induction names generalizing above with
  | nil => rfl
  | cons name rest ih =>
    obtain ⟨accepts, clear⟩ := passed (List.cons_ne_nil name rest)
    rw [FileSystem.cons_eq_append] at accepts clear
    have hbegins := List.prefix_append (above ++ [name]) rest
    have habove : t.IsDirectory above := by
      rw [← List.append_nil above]
      exact directories [] List.nil_prefix
    obtain ⟨node, hnode, hkind⟩ := directories [name] (List.prefix_append [name] rest)
    have hlookup := run_lookupPath_of_clear h habove (accepts.of_isPrefix hbegins)
      (clear.of_isPrefix hbegins)
    rw [hnode] at hlookup
    rw [makeAll, Over.run_bind_of_ok hlookup]
    dsimp only
    rw [if_pos (by exact decide_eq_true hkind)]
    apply ih
    · intro front hfront
      rw [← FileSystem.cons_eq_append]
      exact directories (name :: front) (List.cons_prefix_cons.mpr ⟨rfl, hfront⟩)
    · exact fun _ => ⟨accepts, clear⟩

/-- A request fails because something hinders it. -/
def Hindered (outcome : Except Error Body) : Prop :=
  ∃ fault : Fault, fault.Hinders ∧ outcome = .error fault.systemError

theorem not_hindered_of_ok (body : Body) : ¬Hindered (.ok body) := by
  intro hhindered
  obtain ⟨fault, -, heq⟩ := hhindered
  cases heq

theorem not_hindered_of_noent (message : String) : ¬Hindered (.error ⟨.noent, message, none⟩) := by
  intro hhindered
  obtain ⟨fault, hhinders, heq⟩ := hhindered
  have herrno : Errno.noent = fault.systemError.errno := congrArg Error.errno (Except.error.inj heq)
  cases hhinders with
  | zeroByte => exact absurd herrno (by decide)
  | nametoolong => exact absurd (herrno.trans (Fault.errno_systemError _)) (by decide)
  | acces => exact absurd (herrno.trans (Fault.errno_systemError _)) (by decide)

theorem Completes.isDirectory (h : Completes who mode t u above names)
    (free : ¬Obstructed t above names) {front : List Name} (hbegins : front <+: names) :
    u.IsDirectory (above ++ front) := by
  cases hnode : t.get? (above ++ front) with
  | some node =>
    have hkind : node.kind = .directory := by
      by_contra hkind
      exact free ⟨front, node, hbegins, hnode, hkind⟩
    exact (h.kept _ (by rw [hnode]; rfl)).isDirectory ⟨node, hnode, hkind⟩
  | none =>
    obtain ⟨node, hmade, fresh⟩ := h.made _ hnode (List.prefix_append above front)
      ((List.prefix_append_right_inj above).mpr hbegins)
    exact ⟨node, hmade, fresh.kind⟩

theorem Completes.of_new (h : Completes who mode t u above names) {place : TreePath} {node : Node}
    (hnone : t.get? place = none) (hnode : u.get? place = some node) :
    FileSystem.Fresh who mode node ∧ above <+: place ∧ place <+: above ++ names := by
  by_cases hline : above <+: place ∧ place <+: above ++ names
  · obtain ⟨found, hfound, fresh⟩ := h.made place hnone hline.1 hline.2
    rw [hnode] at hfound
    obtain rfl := Option.some.inj hfound
    exact ⟨fresh, hline⟩
  · rw [h.rest place hnone hline] at hnode
    cases hnode

/-- What is in a new directory is new. -/
theorem Completes.of_child (h : Completes who mode t u above names) (ht : t.WellFormed)
    {place : TreePath} (hnone : t.get? place = none) (hchild : (u.get? (place ++ [name])).isSome) :
    place ++ [name] <+: above ++ names := by
  have hnew : t.get? (place ++ [name]) = none := by
    by_contra hsome
    have habove := ht.isSome_of_isPrefix (Option.isSome_iff_ne_none.mpr hsome)
      (List.prefix_append _ [name])
    rw [hnone] at habove
    cases habove
  obtain ⟨child, hget⟩ := Option.isSome_iff_exists.mp hchild
  exact (h.of_new hnew hget).2.2

theorem mode_of_masked (masked : UInt32) : masked.toNat % 0o10000 = (masked &&& 0o7777).toNat :=
  calc masked.toNat % 0o10000
    _ = masked.toNat &&& 0o7777 := (Nat.and_two_pow_sub_one_eq_mod masked.toNat 12).symm
    _ = (masked &&& 0o7777).toNat := (UInt32.toNat_and masked 0o7777).symm

theorem run_mkdirs (hbelow : Spells src below) (masked : UInt32) (t : Tree) :
    (e.namesystem (.mkdirs src masked createParent)).run t =
      (((e.makeAll src masked.toNat createParent e.root below).run.run t).1.map
          fun all => .reply (.mkdirs all),
        ((e.makeAll src masked.toNat createParent e.root below).run.run t).2) := by
  refine (Over.run_bind_of_ok (run_names_of_spells hbelow t)).trans ?_
  obtain ⟨outcome, u, hrun⟩ : ∃ outcome u,
      (e.makeAll src masked.toNat createParent e.root below).run.run t = (outcome, u) := ⟨_, _, rfl⟩
  rw [hrun]
  cases outcome with
  | error error => exact Over.run_bind_of_error hrun
  | ok all => exact Over.run_bind_of_ok hrun

/-- A request to make directories makes all that are missing, or none. Unless the system hinders it,
by a path that it does not accept or for want of a permission, the tree before tells which. Of what
was there, a directory has another time of its last change if one has been made in it. -/
theorem makes_all_or_nothing (h : t.WellFormed) (directory : t.IsDirectory e.root)
    (hbelow : Spells src below) (masked : UInt32) (createParent : Bool) :
    let request := e.namesystem (.mkdirs src masked createParent)
    let result := request.run t
    (e.caller.privileged = true → FileSystem.Accepts (e.root ++ below) → ¬Hindered result.1) ∧
    (¬Hindered result.1 →
      (Obstructed t e.root below → result = (.ok (.reply (.mkdirs false)), t)) ∧
      (¬Obstructed t e.root below → createParent = false → Orphaned t e.root below →
        result = (.error ⟨.noent, s!"{src}: parent does not exist", none⟩, t)) ∧
      (¬Obstructed t e.root below → (createParent = false → ¬Orphaned t e.root below) →
        result.1 = .ok (.reply (.mkdirs true)) ∧
        (∀ front, front <+: below → result.2.IsDirectory (e.root ++ front)) ∧
        (∀ place node, t.get? place = some node →
          (∃ time, result.2.get? place = some (node.dated time)) ∧
          ((∀ name, t.get? (place ++ [name]) = none → result.2.get? (place ++ [name]) = none) →
            result.2.get? place = some node)) ∧
        (∀ place node, t.get? place = none → result.2.get? place = some node →
          (∃ front, front <+: below ∧ place = e.root ++ front) ∧
          node.kind = .directory ∧ node.mode = (masked &&& 0o7777).toNat ∧
          ∀ name, (result.2.get? (place ++ [name])).isSome → place ++ [name] <+: e.root ++ below) ∧
        request.run result.2 = result)) := by
  intro request result
  have hresult : result = _ := run_mkdirs hbelow masked t
  have hattempt : Attempt e src masked.toNat createParent t e.root below _ :=
    attempt_makeAll h directory hbelow.proper
  generalize (e.makeAll src masked.toNat createParent e.root below).run.run t = made
    at hresult hattempt
  cases hattempt with
  | hindered hinders cause =>
    have hhindered : Hindered result.1 := ⟨_, hinders, by rw [hresult]; rfl⟩
    exact ⟨fun privileged accepts => absurd accepts (cause privileged), absurd hhindered⟩
  | obstructed obstructed =>
    have hnot : ¬Hindered result.1 := by
      rw [hresult]
      exact not_hindered_of_ok _
    exact ⟨fun _ _ => hnot, fun _ => ⟨fun _ => hresult, absurd obstructed, absurd obstructed⟩⟩
  | orphaned free alone orphaned =>
    have hnot : ¬Hindered result.1 := by
      rw [hresult]
      exact not_hindered_of_noent _
    exact ⟨fun _ _ => hnot, fun _ => ⟨fun hobstructed => absurd hobstructed free,
      fun _ _ _ => hresult, fun _ housed => absurd orphaned (housed alone)⟩⟩
  | made hu free housed completes passed =>
    have hnot : ¬Hindered result.1 := by
      rw [hresult]
      exact not_hindered_of_ok _
    refine ⟨fun _ _ => hnot, fun _ => ⟨fun hobstructed => absurd hobstructed free,
      fun _ alone orphaned => absurd orphaned (housed alone), fun _ _ => ?_⟩⟩
    have hagain : (e.makeAll src masked.toNat createParent e.root below).run.run _ = _ :=
      run_makeAll_of_directories hu (fun front => completes.isDirectory free) passed
    rw [hresult]
    refine ⟨rfl, fun front => completes.isDirectory free, ?_, ?_, ?_⟩
    · intro place node hnode
      have hsome : (t.get? place).isSome := Option.isSome_iff_exists.mpr ⟨node, hnode⟩
      exact ⟨(completes.kept place hsome).exists_dated hnode,
        fun hempty => (completes.undated place hsome hempty).trans hnode⟩
    · intro place node hnone hnode
      obtain ⟨fresh, hbegins, hends⟩ := completes.of_new hnone hnode
      obtain ⟨front, rfl⟩ := hbegins
      rw [List.prefix_append_right_inj] at hends
      exact ⟨⟨front, hends, rfl⟩, fresh.kind, fresh.mode.trans (mode_of_masked masked),
        fun name => completes.of_child h hnone⟩
    · exact (run_mkdirs hbelow masked _).trans (by rw [hagain])

/-- A link is in the way, wherever it leads. Two directories are made at once. -/
theorem makes_all_or_nothing_linked :
    linked.WellFormed ∧ linked.IsDirectory exported.root ∧ Spells "/u/d" [[117], [100]] ∧
    Spells "/d/f" [[100], [102]] ∧
    (exported.namesystem (.mkdirs "/u/d" 0o755 true)).run linked =
      (.ok (.reply (.mkdirs false)), linked) ∧
    ∃ u, (exported.namesystem (.mkdirs "/d/f" 0o100755 true)).run linked =
        (.ok (.reply (.mkdirs true)), u) ∧
      u.IsDirectory [[101], [100], [102]] ∧
      (exported.namesystem (.mkdirs "/d/f" 0o100755 true)).run u =
        (.ok (.reply (.mkdirs true)), u) := by
  have hwellFormed : linked.WellFormed := by decide
  have hdirectory : linked.IsDirectory exported.root := by decide
  have hlink : Spells "/u/d" [[117], [100]] := ⟨["u", "d"], by cbv, by cbv⟩
  have hnew : Spells "/d/f" [[100], [102]] := ⟨["d", "f"], by cbv, by cbv⟩
  obtain ⟨hfree, htold⟩ := makes_all_or_nothing hwellFormed hdirectory hlink 0o755 true
  obtain ⟨hfree', htold'⟩ := makes_all_or_nothing hwellFormed hdirectory hnew 0o100755 true
  have hobstructed : Obstructed linked exported.root [[117], [100]] := by decide
  have hclear : ¬Obstructed linked exported.root [[100], [102]] := by decide
  refine ⟨hwellFormed, hdirectory, hlink, hnew,
    (htold (hfree rfl ⟨by decide, by decide⟩)).1 hobstructed, ?_⟩
  obtain ⟨hreply, hdirectories, -, -, hagain⟩ :=
    (htold' (hfree' rfl ⟨by decide, by decide⟩)).2.2 hclear (fun hfalse => by cases hfalse)
  refine ⟨_, Prod.ext hreply rfl, hdirectories _ List.prefix_rfl, ?_⟩
  exact hagain.trans (Prod.ext hreply rfl)

end Export

end MetaFs
